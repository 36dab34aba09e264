import MarkupAudit.Proofs.Pattern.Alike
import MarkupAudit.Proofs.Text.Letter

/-!
Letters that a pattern passes over. `Lacks` says that a letter is in no match of a pattern, `Leads`
that it is the first of every match and comes in it only once, `Single` that a match can end in one
way only.
-/

namespace MarkupAudit

/-- Of two places behind one place, the first is before the second or not. -/
theorem Cursor.lt_or_le {a b place : Cursor} (hb : a ≤ b) (hp : a ≤ place) :
    place.offset < b.offset ∨ b ≤ place := by
  rcases le_or_le hb hp with h | h
  · exact Or.inr h
  · rcases Nat.lt_or_eq_of_le (offset_le h) with hlt | heq
    · exact Or.inl hlt
    · rw [eq_of_offset_eq h heq]
      exact Or.inr (le_refl b)

theorem Cursor.le_of_offset_le {a b place : Cursor} (hb : a ≤ b) (hp : a ≤ place)
    (h : b.offset ≤ place.offset) : b ≤ place := by
  rcases lt_or_le hb hp with hlt | hle
  · omega
  · exact hle

namespace Pattern

open Cursor (le_trans lt_or_le offset_le)

/-- The letter comes next. -/
def atLetter (letter : Char) (cur : Cursor) : Bool := passes (Text.sameLetter letter) cur

/-- The letter is in no match of the pattern. -/
def Lacks (letter : Char) (p : Pattern) : Prop :=
  ∀ a b, b ∈ p.reach a → ∀ place, a ≤ place → place.offset < b.offset →
    atLetter letter place = false

/-- Every match of the pattern begins with the letter and has it only there. -/
structure Leads (letter : Char) (p : Pattern) : Prop where
  head : ∀ a b, b ∈ p.reach a → atLetter letter a = true
  lt : ∀ a b, b ∈ p.reach a → a.offset < b.offset
  once : ∀ a b, b ∈ p.reach a → ∀ place, a ≤ place → a.offset < place.offset →
    place.offset < b.offset → atLetter letter place = false

/-- From each place the pattern ends in one place at most. -/
def Single (p : Pattern) : Prop := ∀ a b c, b ∈ p.reach a → c ∈ p.reach a → b = c

/-- None of the characters that count as the letter is accepted. -/
def rejects (letter : Char) (accepts : Char → Bool) : Bool :=
  (Text.spellings letter).all fun c => !accepts c

variable {letter : Char} {p q : Pattern}

theorem passes_cons (accepts : Char → Bool) (n : Nat) (c : Char) (rest : List Char) :
    passes accepts ⟨n, c :: rest⟩ = accepts c := rfl

theorem mem_reach_char {accepts : Char → Bool} {a b : Cursor} (h : b ∈ (char accepts).reach a) :
    ∃ n c rest, a = ⟨n, c :: rest⟩ ∧ accepts c = true ∧ b = ⟨n + c.utf8Size, rest⟩ := by
  obtain ⟨n, rest⟩ := a
  rw [reach_char] at h
  split at h
  · rename_i hp
    cases rest with
    | nil => cases hp
    | cons c rest => exact ⟨n, c, rest, rfl, hp, by simpa [Cursor.next?] using h⟩
  · cases h

/-- Between a place and the next there is none. -/
theorem eq_of_lt_next {n : Nat} {c : Char} {rest : List Char} {place : Cursor}
    (h : (⟨n, c :: rest⟩ : Cursor) ≤ place) (hlt : place.offset < n + c.utf8Size) :
    place = ⟨n, c :: rest⟩ := by
  rcases Cursor.eq_or_next_le h with rfl | hnext
  · rfl
  · have hle := offset_le hnext
    simp only at hle
    omega

theorem lacks_char {accepts : Char → Bool} (h : rejects letter accepts = true) :
    (char accepts).Lacks letter := by
  intro a b hb place hle hlt
  obtain ⟨n, c, rest, rfl, hc, rfl⟩ := mem_reach_char hb
  rw [eq_of_lt_next hle hlt, atLetter, passes_cons, Bool.eq_false_iff]
  intro hsame
  have hrejects := List.all_eq_true.mp h c (Text.mem_spellings hsame)
  rw [hc] at hrejects
  cases hrejects

/-- A way that has the letter nowhere, and goes on so, has it nowhere. -/
theorem lacks_trans {a b c place : Cursor} (hab : a ≤ b)
    (hfirst : ∀ place, a ≤ place → place.offset < b.offset → atLetter letter place = false)
    (hsecond : ∀ place, b ≤ place → place.offset < c.offset → atLetter letter place = false)
    (hle : a ≤ place) (hlt : place.offset < c.offset) : atLetter letter place = false := by
  rcases lt_or_le hab hle with hbefore | hbehind
  · exact hfirst place hle hbefore
  · exact hsecond place hbehind hlt

theorem lacks_seq (hp : p.Lacks letter) (hq : q.Lacks letter) : (seq p q).Lacks letter := by
  intro a c hc place hle hlt
  rw [reach_seq] at hc
  obtain ⟨b, hb, hc⟩ := List.mem_flatMap.mp hc
  exact lacks_trans (le_of_mem_reach hb) (hp a b hb) (hq b c hc) hle hlt

/-- What a pattern passes over in an attempt, whatever was passed over before. -/
def LacksBetween (letter : Char) (a b : Attempt) : Prop :=
  a.here ≤ b.here ∧ ∀ place, a.here ≤ place → place.offset < b.here.offset →
    atLetter letter place = false

theorem lacksBetween_refl (a : Attempt) : LacksBetween letter a a := by
  refine ⟨Cursor.le_refl _, ?_⟩
  intro place hle hlt
  have := offset_le hle
  omega

theorem lacksBetween_trans {a b c : Attempt} (hab : LacksBetween letter a b)
    (hbc : LacksBetween letter b c) : LacksBetween letter a c :=
  ⟨le_trans hab.1 hbc.1, fun _ => lacks_trans hab.1 hab.2 hbc.2⟩

theorem lacksBetween_of_mem_ends (hp : p.Lacks letter) {a b : Attempt} (h : b ∈ p.ends a) :
    LacksBetween letter a b := by
  have hmem : b.here ∈ p.reach a.here := by
    rw [← map_here_ends]
    exact List.mem_map_of_mem h
  exact ⟨le_of_mem_reach hmem, hp _ _ hmem⟩

theorem lacks_star (hp : p.Lacks letter) : (star p).Lacks letter := by
  intro a b hb
  obtain ⟨found, hf, rfl⟩ := List.mem_map.mp hb
  exact (rel_of_mem_iterate (R := LacksBetween letter) lacksBetween_refl lacksBetween_trans
    (lacksBetween_of_mem_ends hp) hf).2

theorem lacks_lazyStar (hp : p.Lacks letter) : (lazyStar p).Lacks letter := by
  intro a b hb
  obtain ⟨found, hf, rfl⟩ := List.mem_map.mp hb
  exact (rel_of_mem_iterateLazy (R := LacksBetween letter) lacksBetween_refl lacksBetween_trans
    (lacksBetween_of_mem_ends hp) hf).2

/-- A pattern whose classes all reject a letter passes over it nowhere. -/
theorem lacks_of_everyClass (h : p.everyClass (rejects letter) = true) : p.Lacks letter := by
  have hstay : ∀ a b place : Cursor, b ∈ [a] → a ≤ place → place.offset < b.offset → False := by
    intro a b place hb hle hlt
    rw [List.mem_singleton.mp hb] at hlt
    have := offset_le hle
    omega
  induction p with
  | empty => exact fun a b hb place hle hlt => (hstay a b place hb hle hlt).elim
  | char accepts => exact lacks_char h
  | seq p q hp hq =>
    rw [everyClass, Bool.and_eq_true] at h
    exact lacks_seq (hp h.1) (hq h.2)
  | either p q hp hq =>
    rw [everyClass, Bool.and_eq_true] at h
    intro a b hb
    rw [reach_either] at hb
    rcases List.mem_append.mp hb with hb | hb
    · exact hp h.1 a b hb
    · exact hq h.2 a b hb
  | star p hp => exact lacks_star (hp h)
  | lazyStar p hp => exact lacks_lazyStar (hp h)
  | group p hp =>
    intro a b hb
    rw [reach_group] at hb
    exact hp h a b hb
  | notAhead p _ =>
    intro a b hb place hle hlt
    rw [reach_notAhead] at hb
    split at hb
    · cases hb
    · exact (hstay a b place hb hle hlt).elim

theorem leads_char {accepts : Char → Bool} (h : ∀ c, accepts c = true → Text.sameLetter letter c) :
    (char accepts).Leads letter where
  head a b hb := by
    obtain ⟨n, c, rest, rfl, hc, rfl⟩ := mem_reach_char hb
    exact h c hc
  lt a b hb := by
    obtain ⟨n, c, rest, rfl, hc, rfl⟩ := mem_reach_char hb
    have hpos := c.utf8Size_pos
    simp only
    omega
  once a b hb place hle hplace hlt := by
    obtain ⟨n, c, rest, rfl, hc, rfl⟩ := mem_reach_char hb
    rw [eq_of_lt_next hle hlt] at hplace
    omega

theorem leads_exactly (c : Char) : (exactly c).Leads c := by
  apply leads_char
  intro d hd
  rw [eq_of_beq hd]
  exact Text.sameLetter_self c

theorem leads_seq (hp : p.Leads letter) (hq : q.Lacks letter) : (seq p q).Leads letter where
  head a c hc := by
    rw [reach_seq] at hc
    obtain ⟨b, hb, _⟩ := List.mem_flatMap.mp hc
    exact hp.head a b hb
  lt a c hc := by
    rw [reach_seq] at hc
    obtain ⟨b, hb, hc⟩ := List.mem_flatMap.mp hc
    exact Nat.lt_of_lt_of_le (hp.lt a b hb) (offset_le (le_of_mem_reach hc))
  once a c hc place hle hplace hlt := by
    rw [reach_seq] at hc
    obtain ⟨b, hb, hc⟩ := List.mem_flatMap.mp hc
    rcases lt_or_le (le_of_mem_reach hb) hle with hbefore | hbehind
    · exact hp.once a b hb place hle hplace hbefore
    · exact hq b c hc place hbehind hlt

/-- A match is over before the letter comes again. -/
theorem Leads.le_of_atLetter (h : p.Leads letter) {a b place : Cursor} (hb : b ∈ p.reach a)
    (hle : a ≤ place) (hlt : a.offset < place.offset) (hplace : atLetter letter place = true) :
    b ≤ place := by
  rcases lt_or_le (le_of_mem_reach hb) hle with hinside | hbehind
  · rw [h.once a b hb place hle hlt hinside] at hplace
    cases hplace
  · exact hbehind

/-- A match that goes beyond the letter does not begin before it. -/
theorem Leads.le_of_lt (h : p.Leads letter) {text a b place : Cursor} (hb : b ∈ p.reach a)
    (ha : text ≤ a) (hp : text ≤ place) (hplace : atLetter letter place = true)
    (hlt : place.offset < b.offset) : place ≤ a := by
  rcases lt_or_le hp ha with hbefore | hle
  · have hle := Cursor.le_of_offset_le ha hp (Nat.le_of_lt hbefore)
    have hover := offset_le (h.le_of_atLetter hb hle hbefore hplace)
    omega
  · exact hle

/-- Matches that end in one way only do so in the order in which they begin. -/
theorem Leads.le_of_le (h : p.Leads letter) (hsingle : p.Single) {a b stop stop' : Cursor}
    (hab : a ≤ b) (hstop : stop ∈ p.reach a) (hstop' : stop' ∈ p.reach b) : stop ≤ stop' := by
  rcases Nat.lt_or_eq_of_le (offset_le hab) with hlt | heq
  · exact le_trans (h.le_of_atLetter hstop hab hlt (h.head b stop' hstop')) (le_of_mem_reach hstop')
  · rw [Cursor.eq_of_offset_eq hab heq] at hstop
    rw [hsingle b stop stop' hstop hstop']
    exact Cursor.le_refl _

/-- So do matches that run up to a letter. -/
theorem le_of_last (hp : p.Lacks letter) (hq : q.Leads letter) (hsingle : q.Single)
    {a b stop stop' : Cursor} (hab : a ≤ b) (hstop : stop ∈ (seq p q).reach a)
    (hstop' : stop' ∈ (seq p q).reach b) : stop ≤ stop' := by
  rw [reach_seq] at hstop hstop'
  obtain ⟨mark, hmark, hstop⟩ := List.mem_flatMap.mp hstop
  obtain ⟨mark', hmark', hstop'⟩ := List.mem_flatMap.mp hstop'
  have hle := le_trans hab (le_of_mem_reach hmark')
  rcases lt_or_le (le_of_mem_reach hmark) hle with hbefore | hbehind
  · have hletter := hq.head mark' stop' hstop'
    rw [hp a mark hmark mark' hle hbefore] at hletter
    cases hletter
  · exact hq.le_of_le hsingle hbehind hstop hstop'

theorem leads_concat_cons {ps : List Pattern} (hp : p.Leads letter)
    (hps : (concat ps).Lacks letter) : (concat (p :: ps)).Leads letter := by
  cases ps with
  | nil => exact hp
  | cons q ps => exact leads_seq hp hps

theorem leads_literal {word : String} {letters : List Char}
    (hword : word.toList = letter :: letters)
    (h : (concat (letters.map fun c => char (Text.sameLetter c))).everyClass (rejects letter) =
      true) : (literal word).Leads letter := by
  rw [literal, hword, List.map_cons]
  exact leads_concat_cons (leads_char fun _ h => h) (lacks_of_everyClass h)

theorem single_char (accepts : Char → Bool) : (char accepts).Single := by
  intro a b c hb hc
  obtain ⟨n, x, rest, rfl, _, rfl⟩ := mem_reach_char hb
  obtain ⟨_, _, _, heq, _, rfl⟩ := mem_reach_char hc
  cases heq
  rfl

theorem single_literal (word : String) : (literal word).Single := by
  intro a b c hb hc
  rw [mem_reach_literal] at hb hc
  exact Option.some.inj (hb.symm.trans hc)

theorem single_seq (hp : p.Single) (hq : q.Single) : (seq p q).Single := by
  intro a c c' hc hc'
  rw [reach_seq] at hc hc'
  obtain ⟨b, hb, hc⟩ := List.mem_flatMap.mp hc
  obtain ⟨b', hb', hc'⟩ := List.mem_flatMap.mp hc'
  rw [hp a b b' hb hb'] at hc
  exact hq b' c c' hc hc'

/-- Of words none of which begins another only one is spelled by a text. -/
theorem single_choice {words : List String} (h : ∀ word ∈ words, ∀ other ∈ words,
    word.toList.map Text.fold <+: other.toList.map Text.fold → word = other) :
    (choice (words.map literal)).Single := by
  intro a b c hb hc
  obtain ⟨p, hp, hb⟩ := mem_reach_choice.mp hb
  obtain ⟨q, hq, hc⟩ := mem_reach_choice.mp hc
  obtain ⟨word, hw, rfl⟩ := List.mem_map.mp hp
  obtain ⟨other, ho, rfl⟩ := List.mem_map.mp hq
  have hsame : word = other := by
    rw [mem_reach_literal] at hb hc
    rcases Cursor.prefix_of_spell? hb hc with hle | hle
    · exact h word hw other ho hle
    · exact (h other ho word hw hle).symm
  rw [hsame] at hb
  exact single_literal other a b c hb hc

end Pattern

end MarkupAudit
