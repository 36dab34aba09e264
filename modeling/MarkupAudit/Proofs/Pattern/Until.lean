import MarkupAudit.Proofs.Pattern.Spelling
import MarkupAudit.Proofs.Text.Letter

/-!
Runs up to a character. A run of characters that are none of a few may end at any place on the way
to the first of these few, or there. What comes behind the run decides: if it begins with one of the
few, only the last place will do (`matchesAt_run_of_meets`), so the search has no choice; if it
begins with none of them, every place but the last is tried (`matchesAt_run_of_not_meets`).
-/

namespace MarkupAudit

namespace Cursor

/-- One of the characters comes next. -/
def meets (cs : List Char) (cur : Cursor) : Bool := cur.rest.head?.any (cs.contains ·)

/-- The first place from here on where one of the characters comes next. -/
def firstOf? (cs : List Char) (cur : Cursor) : Option Cursor := cur.onward.find? (meets cs)

/-- The place behind the first of the characters from here on. -/
def behindFirst? (cs : List Char) (cur : Cursor) : Option Cursor := (cur.firstOf? cs).bind next?

/-- The places from here on that come before the first of the characters. -/
def before (cs : List Char) (cur : Cursor) : List Cursor := cur.onward.takeWhile (!meets cs ·)

variable {cs : List Char}

theorem meets_of_mem_firstOf? {a b : Cursor} (h : a.firstOf? cs = some b) : b.meets cs = true :=
  List.find?_some h

theorem not_meets_of_mem_before {a b : Cursor} (h : b ∈ a.before cs) : b.meets cs = false := by
  have hall := List.all_takeWhile (p := (!meets cs ·)) (l := a.onward)
  simpa using List.all_eq_true.mp hall b h

theorem before_cons (n : Nat) (c : Char) (rest : List Char) :
    (⟨n, c :: rest⟩ : Cursor).before cs = if cs.contains c then []
      else ⟨n, c :: rest⟩ :: (⟨n + c.utf8Size, rest⟩ : Cursor).before cs := by
  rw [before, onward, after_cons, List.takeWhile_cons]
  by_cases hc : cs.contains c = true
  · rw [if_pos hc, if_neg (by simpa [meets] using hc)]
  · rw [if_neg hc, if_pos (by simpa [meets] using hc)]
    rfl

theorem firstOf?_cons (n : Nat) (c : Char) (rest : List Char) :
    (⟨n, c :: rest⟩ : Cursor).firstOf? cs = if cs.contains c then some ⟨n, c :: rest⟩
      else (⟨n + c.utf8Size, rest⟩ : Cursor).firstOf? cs := by
  rw [firstOf?, onward, after_cons, List.find?_cons]
  by_cases hc : cs.contains c = true
  · rw [if_pos hc, show meets cs ⟨n, c :: rest⟩ = true from hc]
  · rw [if_neg hc, show meets cs ⟨n, c :: rest⟩ = false from Bool.eq_false_iff.mpr hc]
    rfl

/-- A word begins with one of the spellings of its first letter. -/
theorem exists_spelling_of_spell? {letter : Char} {letters : List Char} {a b : Cursor}
    (h : a.spell? (letter :: letters) = some b) :
    ∃ c ∈ Text.spellings letter, a.rest.head? = some c := by
  obtain ⟨n, rest⟩ := a
  cases rest with
  | nil => cases h
  | cons c rest =>
    rw [spell?_cons] at h
    split at h
    · rename_i hc
      exact ⟨c, Text.mem_spellings hc, rfl⟩
    · cases h

/-- Whether one of the characters comes next where a word begins, when they are all spellings of
its first letter or all none. -/
theorem meets_of_spell? {letter : Char} {letters : List Char} {answer : Bool}
    (hspellings : (Text.spellings letter).all (cs.contains · == answer) = true) {a b : Cursor}
    (h : a.spell? (letter :: letters) = some b) : a.meets cs = answer := by
  obtain ⟨c, hc, hhead⟩ := exists_spelling_of_spell? h
  rw [meets, hhead]
  exact eq_of_beq (List.all_eq_true.mp hspellings c hc)

/-- A run may end before the first of the characters, anywhere, or at it. -/
theorem stretch_noneOf (cs : List Char) (cur : Cursor) :
    cur.stretch (Pattern.passes (!cs.contains ·)) = cur.before cs ++ (cur.firstOf? cs).toList := by
  obtain ⟨n, rest⟩ := cur
  induction rest generalizing n with
  | nil => rfl
  | cons c rest ih =>
    rw [stretch_cons, before_cons, firstOf?_cons, ih]
    by_cases hc : cs.contains c = true
    · rw [if_pos hc, if_pos hc, if_neg (by simpa [Pattern.passes] using hc)]
      rfl
    · rw [if_neg hc, if_neg hc, if_pos (by simpa [Pattern.passes] using hc)]
      rfl

end Cursor

namespace Pattern

variable {p q : Pattern} {cs : List Char}

theorem matchesAt_seq (p q : Pattern) (cur : Cursor) :
    (seq p q).matchesAt cur = (p.reach cur).any q.matchesAt := by
  rw [Bool.eq_iff_iff, matchesAt_iff, reach_seq, List.any_eq_true]
  simp only [List.mem_flatMap, matchesAt_iff]
  constructor
  · intro h
    obtain ⟨stop, place, hp, hs⟩ := h
    exact ⟨place, hp, stop, hs⟩
  · intro h
    obtain ⟨place, hp, stop, hs⟩ := h
    exact ⟨stop, place, hp, hs⟩

theorem matchesAt_either (p q : Pattern) (cur : Cursor) :
    (either p q).matchesAt cur = (p.matchesAt cur || q.matchesAt cur) := by
  rw [Bool.eq_iff_iff, Bool.or_eq_true, matchesAt_iff, matchesAt_iff, matchesAt_iff, reach_either]
  simp only [List.mem_append, exists_or]

theorem matchesAt_literal (word : String) (cur : Cursor) :
    (literal word).matchesAt cur = (cur.spell? word.toList).isSome := by
  rw [matchesAt_eq, reach_literal]
  cases cur.spell? word.toList <;> rfl

theorem matchesAt_seq_literal (word : String) (q : Pattern) (cur : Cursor) :
    (seq (literal word) q).matchesAt cur = (cur.spell? word.toList).any q.matchesAt := by
  rw [matchesAt_seq, reach_literal]
  cases cur.spell? word.toList <;> simp

theorem exactly_eq_anyOf (c : Char) : exactly c = anyOf [c] := by
  unfold exactly anyOf
  congr 1
  funext d
  rw [Bool.eq_iff_iff]
  simp

theorem matchesAt_seq_anyOf (cs : List Char) (q : Pattern) (cur : Cursor) :
    (seq (anyOf cs) q).matchesAt cur = (cur.meets cs && cur.next?.any q.matchesAt) := by
  rw [matchesAt_seq, anyOf, reach_char, show passes (cs.contains ·) cur = cur.meets cs from rfl]
  cases cur.meets cs with
  | false => rfl
  | true => cases cur.next? <;> simp

theorem matchesAt_run (cs : List Char) (q : Pattern) (cur : Cursor) :
    (seq (star (noneOf cs)) q).matchesAt cur =
      ((cur.before cs).any q.matchesAt || (cur.firstOf? cs).any q.matchesAt) := by
  rw [matchesAt_seq, noneOf, reach_star_of_step (steps_char _), List.any_reverse,
    Cursor.stretch_noneOf, List.any_append]
  cases cur.firstOf? cs <;> simp

/-- What begins with one of the characters can come only where the first of them is. -/
theorem matchesAt_run_of_meets (hq : ∀ cur, q.matchesAt cur = true → cur.meets cs = true)
    (cur : Cursor) : (seq (star (noneOf cs)) q).matchesAt cur =
      (cur.firstOf? cs).any q.matchesAt := by
  have hbefore : (cur.before cs).any q.matchesAt = false := by
    rw [List.any_eq_false]
    intro place hp hmatch
    have hmeets := hq place hmatch
    rw [Cursor.not_meets_of_mem_before hp] at hmeets
    cases hmeets
  rw [matchesAt_run, hbefore, Bool.false_or]

/-- What begins with none of the characters comes before the first of them. -/
theorem matchesAt_run_of_not_meets (hq : ∀ cur, q.matchesAt cur = true → cur.meets cs = false)
    (cur : Cursor) : (seq (star (noneOf cs)) q).matchesAt cur =
      (cur.before cs).any q.matchesAt := by
  have hfirst : (cur.firstOf? cs).any q.matchesAt = false := by
    cases hf : cur.firstOf? cs with
    | none => rfl
    | some place =>
      apply Bool.eq_false_iff.mpr
      intro hmatch
      have hmeets := hq place hmatch
      rw [Cursor.meets_of_mem_firstOf? hf] at hmeets
      cases hmeets
  rw [matchesAt_run, hfirst, Bool.or_false]

/-- Past the first of the characters. -/
theorem matchesAt_run_anyOf (cs : List Char) (q : Pattern) (cur : Cursor) :
    (seq (star (noneOf cs)) (seq (anyOf cs) q)).matchesAt cur =
      (cur.behindFirst? cs).any q.matchesAt := by
  have hmeets : ∀ cur, (seq (anyOf cs) q).matchesAt cur = true → cur.meets cs = true := by
    intro cur hmatch
    rw [matchesAt_seq_anyOf, Bool.and_eq_true] at hmatch
    exact hmatch.1
  rw [matchesAt_run_of_meets hmeets, Cursor.behindFirst?]
  cases hf : cur.firstOf? cs with
  | none => rfl
  | some place =>
    rw [Option.any_some, Option.bind_some, matchesAt_seq_anyOf, Cursor.meets_of_mem_firstOf? hf,
      Bool.true_and]

end Pattern

end MarkupAudit
