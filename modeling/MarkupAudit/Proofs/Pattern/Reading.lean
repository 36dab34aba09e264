import MarkupAudit.Proofs.Pattern.Lead
import MarkupAudit.Proofs.Pattern.Until

/-!
Patterns that leave no choice. Such a pattern reads: from a place it goes to one other place or fails
(`Reads`). Words do, one thing read after another does, and so does white space before what cannot
begin with white space (`reads_skip`), however the white space could be shared out.
-/

namespace MarkupAudit

namespace Cursor

/-- The place behind an accepted character that comes next. -/
def pass? (accepts : Char → Bool) (cur : Cursor) : Option Cursor :=
  if Pattern.passes accepts cur then cur.next? else none

/-- The place behind a quotation mark of either kind that comes next. -/
def quote? : Cursor → Option Cursor := pass? (['"', '\''].contains ·)

theorem skipWhile_cons (accepts : Char → Bool) (n : Nat) (c : Char) (rest : List Char) :
    (⟨n, c :: rest⟩ : Cursor).skipWhile accepts = if accepts c
      then (⟨n + c.utf8Size, rest⟩ : Cursor).skipWhile accepts else ⟨n, c :: rest⟩ := by
  rw [skipWhile, takeWhile, takeRun]
  split <;> rfl

end Cursor

namespace Pattern

/-- From each place the pattern ends where the reader does, and nowhere else. -/
def Reads (p : Pattern) (reader : Cursor → Option Cursor) : Prop :=
  ∀ cur, p.reach cur = (reader cur).toList

variable {p q : Pattern} {reader other : Cursor → Option Cursor}

theorem Reads.single (h : p.Reads reader) : p.Single := by
  intro a b c hb hc
  rw [h a, Option.mem_toList] at hb hc
  exact Option.some.inj (hb.symm.trans hc)

theorem Reads.mem_reach (h : p.Reads reader) {a b : Cursor} : b ∈ p.reach a ↔ reader a = some b := by
  rw [h a, Option.mem_toList]

theorem Reads.reach_seq (h : p.Reads reader) (q : Pattern) (cur : Cursor) :
    (seq p q).reach cur = (reader cur).toList.flatMap q.reach := by
  rw [Pattern.reach_seq, h cur]

theorem Reads.head?_reach (h : p.Reads reader) : (fun cur => (p.reach cur).head?) = reader := by
  funext cur
  rw [h cur, Option.head?_toList]

/-- What comes behind is tried once. -/
theorem Reads.head?_reach_seq (h : p.Reads reader) (q : Pattern) (cur : Cursor) :
    ((seq p q).reach cur).head? = (reader cur).bind fun place => (q.reach place).head? := by
  rw [h.reach_seq]
  cases reader cur with
  | none => rfl
  | some place => rw [Option.toList_some, List.flatMap_singleton, Option.bind_some]

theorem reads_literal (word : String) : (literal word).Reads (·.spell? word.toList) :=
  reach_literal word

theorem reads_char (accepts : Char → Bool) : (char accepts).Reads (·.pass? accepts) := by
  intro cur
  rw [reach_char]
  beta_reduce
  rw [Cursor.pass?]
  split <;> rfl

theorem reads_quote : quote.Reads Cursor.quote? := reads_char _

theorem reads_seq (hp : p.Reads reader) (hq : q.Reads other) :
    (seq p q).Reads fun cur => (reader cur).bind other := by
  intro cur
  rw [hp.reach_seq]
  beta_reduce
  cases reader cur with
  | none => rfl
  | some place => rw [Option.toList_some, List.flatMap_singleton, hq place, Option.bind_some]

theorem reads_either (hp : p.Reads reader) (hq : q.Reads other)
    (h : ∀ cur, reader cur = none ∨ other cur = none) :
    (either p q).Reads fun cur => (reader cur).or (other cur) := by
  intro cur
  rw [reach_either, hp cur, hq cur]
  beta_reduce
  rcases h cur with hnone | hnone
  · rw [hnone, Option.none_or]
    rfl
  · rw [hnone, Option.or_none]
    exact List.append_nil _

/-- A character that is written in one way only is matched as a word of one letter. -/
theorem exactly_eq_char {c : Char} (h : Text.spellings c = [c]) :
    exactly c = char (Text.sameLetter c) := by
  apply congrArg char
  funext d
  rw [Bool.eq_iff_iff, beq_iff_eq]
  constructor
  · rintro rfl
    exact Text.sameLetter_self _
  · intro hd
    have hmem := Text.mem_spellings hd
    rwa [h, List.mem_singleton] at hmem

/-- No word begins where a class passes that rejects its first letter. -/
theorem spell?_eq_none {letter : Char} {letters : List Char} {accepts : Char → Bool}
    (h : rejects letter accepts = true) {cur : Cursor} (hcur : passes accepts cur = true) :
    cur.spell? (letter :: letters) = none := by
  apply Option.eq_none_iff_forall_ne_some.mpr
  intro stop hs
  obtain ⟨c, hc, hhead⟩ := Cursor.exists_spelling_of_spell? hs
  rw [passes, hhead, Option.any_some] at hcur
  have hrejects := List.all_eq_true.mp h c hc
  rw [hcur] at hrejects
  cases hrejects

/-- A run has no choice before what cannot begin in it. -/
theorem reads_skip {accepts : Char → Bool} (hq : q.Reads reader)
    (hnone : ∀ cur, passes accepts cur = true → reader cur = none) :
    (seq (star (char accepts)) q).Reads fun cur => reader (cur.skipWhile accepts) := by
  intro cur
  obtain ⟨n, rest⟩ := cur
  rw [Pattern.reach_seq, reach_star_of_step (steps_char accepts)]
  beta_reduce
  induction rest generalizing n with
  | nil =>
    rw [← hq]
    exact List.flatMap_singleton ..
  | cons c rest ih =>
    rw [Cursor.stretch_cons, List.reverse_cons, List.flatMap_append, List.flatMap_singleton,
      passes_cons, Cursor.skipWhile_cons, hq]
    split
    · rename_i hc
      rw [ih, hnone ⟨n, c :: rest⟩ hc]
      exact List.append_nil _
    · rfl

end Pattern

end MarkupAudit
