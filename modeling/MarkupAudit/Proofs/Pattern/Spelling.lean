import MarkupAudit.Proofs.Pattern.Reach

/-!
Words in a text, and the patterns made of them. `Cursor.spell?` reads a word off a text letter by
letter, in either case, with no pattern at work; a literal pattern reaches just the place behind its
word (`reach_literal`). The same is said of a run of characters that are not a given one, and of the
tags of the catalogue.
-/

namespace MarkupAudit

namespace Cursor

/-- The place behind a word that comes next, its letters in either case. -/
def spell? : List Char → Cursor → Option Cursor
  | [], cur => some cur
  | letter :: word, cur =>
    match cur.uncons with
    | none => none
    | some (c, next) => if Text.sameLetter letter c then spell? word next else none

theorem spell?_cons (letter : Char) (word : List Char) (n : Nat) (c : Char) (rest : List Char) :
    spell? (letter :: word) ⟨n, c :: rest⟩ =
      if Text.sameLetter letter c then spell? word ⟨n + c.utf8Size, rest⟩ else none := rfl

theorem spell?_eq_some_iff {word : List Char} {a b : Cursor} : a.spell? word = some b ↔
    ∃ passed, a.rest = passed ++ b.rest ∧ b.offset = a.offset + Text.byteLength passed ∧
      List.Forall₂ (fun letter c => Text.sameLetter letter c = true) word passed := by
  obtain ⟨n, rest⟩ := a
  induction word generalizing n rest with
  | nil =>
    constructor
    · intro h
      cases h
      exact ⟨[], rfl, rfl, .nil⟩
    · intro h
      obtain ⟨passed, hr, ho, hp⟩ := h
      cases hp
      obtain ⟨m, rest'⟩ := b
      simp only [List.nil_append, Text.byteLength_nil, Nat.add_zero] at hr ho
      rw [hr, ho]
      rfl
  | cons letter word ih =>
    cases rest with
    | nil =>
      constructor
      · intro h
        cases h
      · intro h
        obtain ⟨passed, hr, _, hp⟩ := h
        cases hp
        cases hr
    | cons c rest =>
      rw [spell?_cons]
      constructor
      · intro h
        split at h
        · rename_i hc
          obtain ⟨passed, hr, ho, hp⟩ := (ih _ _).mp h
          refine ⟨c :: passed, congrArg (c :: ·) hr, ?_, .cons hc hp⟩
          simp only at ho
          rw [ho, Text.byteLength_cons, Nat.add_assoc]
        · cases h
      · intro h
        obtain ⟨passed, hr, ho, hp⟩ := h
        cases hp with
        | cons hc hp =>
          obtain ⟨rfl, htail⟩ := List.cons.inj hr
          rw [if_pos hc]
          refine (ih _ _).mpr ⟨_, htail, ?_, hp⟩
          rw [ho, Text.byteLength_cons, Nat.add_assoc]

theorem le_of_spell? {word : List Char} {a b : Cursor} (h : a.spell? word = some b) : a ≤ b := by
  obtain ⟨passed, hr, ho, _⟩ := spell?_eq_some_iff.mp h
  exact ⟨passed, hr, ho⟩

theorem spell?_append (first second : List Char) (cur : Cursor) :
    cur.spell? (first ++ second) = (cur.spell? first).bind (spell? second) := by
  obtain ⟨n, rest⟩ := cur
  induction first generalizing n rest with
  | nil => rfl
  | cons letter first ih =>
    cases rest with
    | nil => rfl
    | cons c rest =>
      rw [List.cons_append, spell?_cons, spell?_cons]
      split
      · exact ih _ _
      · rfl

theorem map_fold_eq_of_spell? {word passed : List Char}
    (h : List.Forall₂ (fun letter c => Text.sameLetter letter c = true) word passed) :
    passed.map Text.fold = word.map Text.fold := by
  induction h with
  | nil => rfl
  | cons hc _ ih => rw [List.map_cons, List.map_cons, Text.sameLetter_iff.mp hc, ih]

theorem prefix_of_spell? {first second : List Char} {cur a b : Cursor}
    (ha : cur.spell? first = some a) (hb : cur.spell? second = some b) :
    first.map Text.fold <+: second.map Text.fold ∨
      second.map Text.fold <+: first.map Text.fold := by
  obtain ⟨passed, hr, _, hp⟩ := spell?_eq_some_iff.mp ha
  obtain ⟨passed', hr', _, hp'⟩ := spell?_eq_some_iff.mp hb
  rw [← map_fold_eq_of_spell? hp, ← map_fold_eq_of_spell? hp']
  have h : passed <+: cur.rest := ⟨a.rest, hr.symm⟩
  have h' : passed' <+: cur.rest := ⟨b.rest, hr'.symm⟩
  rcases List.prefix_or_prefix_of_prefix h h' with hle | hle
  · exact Or.inl (hle.map Text.fold)
  · exact Or.inr (hle.map Text.fold)

/-- An opening bracket comes next. -/
def AtTag (cur : Cursor) : Prop := ∃ c rest, cur.rest = c :: rest ∧ Text.fold c = '<'

theorem not_atTag_of_spell? {word : List Char} (hw : ∀ letter ∈ word, Text.fold letter ≠ '<')
    {a b m : Cursor} (h : a.spell? word = some b) (ham : a ≤ m) (hlt : m.offset < b.offset) :
    ¬m.AtTag := by
  induction word generalizing a with
  | nil =>
    cases h
    have hle := offset_le ham
    omega
  | cons letter word ih =>
    obtain ⟨n, rest⟩ := a
    cases rest with
    | nil => cases h
    | cons c rest =>
      rw [spell?_cons] at h
      split at h
      · rename_i hc
        rcases eq_or_next_le ham with rfl | ham
        · intro h
          obtain ⟨d, rest', hd, hfold⟩ := h
          obtain ⟨rfl, _⟩ := List.cons.inj hd
          have hletter := hw letter List.mem_cons_self
          rw [← Text.sameLetter_iff.mp hc] at hletter
          exact hletter hfold
        · exact ih (fun other ho => hw other (List.mem_cons_of_mem letter ho)) h ham
      · cases h

/-- A word with an opening bracket at its front and no other. -/
def IsTag (word : String) : Prop :=
  ∃ letters, word.toList = '<' :: letters ∧ ∀ letter ∈ letters, Text.fold letter ≠ '<'

theorem isTag_of_all {word : String} {letters : List Char} (h : word.toList = '<' :: letters)
    (hletters : letters.all (fun letter => Text.fold letter != '<') = true) : IsTag word := by
  refine ⟨letters, h, ?_⟩
  intro letter hl
  exact bne_iff_ne.mp (List.all_eq_true.mp hletters letter hl)

variable {word : String} {a b m : Cursor}

/-- A tag is spelled by an opening bracket and then by letters that are none. -/
theorem IsTag.exists_next (hw : IsTag word) (h : a.spell? word.toList = some b) :
    ∃ n c rest letters, a = ⟨n, c :: rest⟩ ∧ Text.fold c = '<' ∧
      (∀ letter ∈ letters, Text.fold letter ≠ '<') ∧
      (⟨n + c.utf8Size, rest⟩ : Cursor).spell? letters = some b := by
  obtain ⟨letters, heq, hletters⟩ := hw
  obtain ⟨n, rest⟩ := a
  rw [heq] at h
  cases rest with
  | nil => cases h
  | cons c rest =>
    rw [spell?_cons] at h
    split at h
    · rename_i hc
      exact ⟨n, c, rest, letters, rfl, Text.sameLetter_iff.mp hc, hletters, h⟩
    · cases h

theorem IsTag.atTag (hw : IsTag word) (h : a.spell? word.toList = some b) : a.AtTag := by
  obtain ⟨n, c, rest, letters, rfl, hc, _, _⟩ := hw.exists_next h
  exact ⟨c, rest, rfl, hc⟩

theorem IsTag.not_atTag (hw : IsTag word) (h : a.spell? word.toList = some b) (ham : a ≤ m)
    (hlt : a.offset < m.offset) (hmb : m.offset < b.offset) : ¬m.AtTag := by
  obtain ⟨n, c, rest, letters, rfl, _, hletters, hs⟩ := hw.exists_next h
  rcases eq_or_next_le ham with rfl | ham
  · omega
  · exact not_atTag_of_spell? hletters hs ham hmb

theorem IsTag.lt (hw : IsTag word) (h : a.spell? word.toList = some b) : a.offset < b.offset := by
  obtain ⟨n, c, rest, letters, rfl, _, _, hs⟩ := hw.exists_next h
  exact lt_of_next_le (le_of_spell? hs)

end Cursor

namespace Pattern

theorem reach_concat_spell (word : List Char) (cur : Cursor) :
    (concat (word.map fun c => char (Text.sameLetter c))).reach cur = (cur.spell? word).toList := by
  induction word generalizing cur with
  | nil => rfl
  | cons letter word ih =>
    obtain ⟨n, rest⟩ := cur
    rw [List.map_cons, reach_concat_cons, reach_char]
    cases rest with
    | nil => rfl
    | cons c rest =>
      rw [Cursor.spell?_cons]
      by_cases h : Text.sameLetter letter c = true
      · simp [passes, Cursor.next?, h, ih]
      · simp [passes, h]

theorem reach_literal (word : String) (cur : Cursor) :
    (literal word).reach cur = (cur.spell? word.toList).toList :=
  reach_concat_spell word.toList cur

theorem mem_reach_literal {word : String} {a b : Cursor} :
    b ∈ (literal word).reach a ↔ a.spell? word.toList = some b := by
  rw [reach_literal, Option.mem_toList]

theorem groupFree_literal (word : String) : (literal word).groupFree = true := by
  rw [literal]
  induction word.toList with
  | nil => rfl
  | cons c word ih =>
    cases word with
    | nil => rfl
    | cons d word => exact ih

/-- The pattern reads nothing but these words, each of which is a tag. -/
structure Tags (p : Pattern) (words : List String) : Prop where
  spells : ∀ a b, b ∈ p.reach a → ∃ word ∈ words, a.spell? word.toList = some b
  isTag : ∀ word ∈ words, Cursor.IsTag word

theorem tags_literal {word : String} (h : Cursor.IsTag word) : (literal word).Tags [word] where
  spells a b hb := by
    exact ⟨word, List.mem_singleton_self word, mem_reach_literal.mp hb⟩
  isTag other ho := by
    rw [List.mem_singleton.mp ho]
    exact h

section Tags

variable {p q : Pattern} {words others : List String} {a b m : Cursor}

theorem Tags.atTag (hp : p.Tags words) (h : p.matchesAt a = true) : a.AtTag := by
  obtain ⟨b, hb⟩ := matchesAt_iff.mp h
  obtain ⟨word, hmem, hs⟩ := hp.spells a b hb
  exact (hp.isTag word hmem).atTag hs

theorem Tags.not_matchesAt (hp : p.Tags words) (h : ¬a.AtTag) : p.matchesAt a = false := by
  rw [Bool.eq_false_iff]
  intro hm
  exact h (hp.atTag hm)

theorem Tags.lt (hp : p.Tags words) (h : b ∈ p.reach a) : a.offset < b.offset := by
  obtain ⟨word, hmem, hs⟩ := hp.spells a b h
  exact (hp.isTag word hmem).lt hs

/-- No tag opens inside of another. -/
theorem Tags.not_atTag (hp : p.Tags words) (h : b ∈ p.reach a) (ham : a ≤ m)
    (hlt : a.offset < m.offset) (hmb : m.offset < b.offset) : ¬m.AtTag := by
  obtain ⟨word, hmem, hs⟩ := hp.spells a b h
  exact (hp.isTag word hmem).not_atTag hs ham hlt hmb

variable {n : Nat} {c : Char} {rest : List Char}

theorem Tags.next_le (hp : p.Tags words) (h : b ∈ p.reach ⟨n, c :: rest⟩) :
    (⟨n + c.utf8Size, rest⟩ : Cursor) ≤ b := by
  have hlt := hp.lt h
  rcases Cursor.eq_or_next_le (le_of_mem_reach h) with rfl | hnext
  · omega
  · exact hnext

theorem Tags.not_atTag_behind (hp : p.Tags words) (h : b ∈ p.reach ⟨n, c :: rest⟩)
    (hm : (⟨n + c.utf8Size, rest⟩ : Cursor) ≤ m) (hmb : m.offset < b.offset) : ¬m.AtTag :=
  hp.not_atTag h (Cursor.le_trans Cursor.le_next hm) (Cursor.lt_of_next_le hm) hmb

/-- Two patterns whose words all differ before either ends do not match at one place. -/
theorem Tags.exclude (hp : p.Tags words) (hq : q.Tags others)
    (hne : ∀ word ∈ words, ∀ other ∈ others,
      ¬word.toList.map Text.fold <+: other.toList.map Text.fold ∧
        ¬other.toList.map Text.fold <+: word.toList.map Text.fold)
    (h : p.matchesAt a = true) : q.matchesAt a = false := by
  rw [Bool.eq_false_iff]
  intro h'
  obtain ⟨b, hb⟩ := matchesAt_iff.mp h
  obtain ⟨c, hc⟩ := matchesAt_iff.mp h'
  obtain ⟨word, hw, hb⟩ := hp.spells a b hb
  obtain ⟨other, ho, hc⟩ := hq.spells a c hc
  obtain ⟨hfirst, hsecond⟩ := hne word hw other ho
  -- Both words are spelled by the same text, so one would begin the other.
  rcases Cursor.prefix_of_spell? hb hc with hle | hle
  · exact hfirst hle
  · exact hsecond hle

end Tags

end Pattern

end MarkupAudit
