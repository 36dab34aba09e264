import MarkupAudit.Text.Line
import Mathlib.Data.List.Basic

/-!
Where a place of a text stands among its lines. Of what is before the place, the part up to the last
newline ends as many lines as it has newlines (`drop_lines`), and the rest begins the line of the
place (`getElem?_lines`), unless a line ends right there.
-/

namespace MarkupAudit.Text

theorem lines_newline (rest : List Char) : lines ('\n' :: rest) = [] :: lines rest := by
  rw [lines]

/-- A carriage return before a newline makes no difference. -/
theorem lines_return (rest : List Char) : lines ('\r' :: '\n' :: rest) = lines ('\n' :: rest) := by
  rw [lines_newline, lines]

/-- The character that follows does not end a line. -/
def GoesOn (c : Char) (rest : List Char) : Prop := c ≠ '\n' ∧ ∀ more, c = '\r' → rest ≠ '\n' :: more

theorem lines_cons {c : Char} {rest : List Char} (h : GoesOn c rest) : lines (c :: rest) =
    (c :: (lines rest).headD []) :: (lines rest).tail := by
  rw [lines]
  · cases lines rest <;> rfl
  · exact h.1
  · exact h.2

/-- Each newline of a text ends one line. -/
theorem drop_lines (front rest : List Char) :
    (lines (front ++ '\n' :: rest)).drop (front.count '\n' + 1) = lines rest := by
  induction front with
  | nil =>
    rw [List.nil_append, lines_newline]
    rfl
  | cons c front ih =>
    rw [List.cons_append]
    by_cases hc : c = '\n'
    · subst hc
      rw [lines_newline, List.count_cons_self, List.drop_succ_cons]
      exact ih
    · rw [List.count_cons_of_ne hc]
      by_cases hreturn : ∃ more, c = '\r' ∧ front ++ '\n' :: rest = '\n' :: more
      · obtain ⟨more, rfl, hmore⟩ := hreturn
        rw [hmore, lines_return, ← hmore]
        exact ih
      · have hgoes : GoesOn c (front ++ '\n' :: rest) :=
          ⟨hc, fun more hr hm => hreturn ⟨more, hr, hm⟩⟩
        rw [lines_cons hgoes, List.drop_succ_cons, ← ih, List.drop_tail]

/-- A character that ends no line stands in the first line when no newline is before it. -/
theorem lines_append_of_not_mem {column : List Char} (h : '\n' ∉ column) {c : Char}
    {behind : List Char} (hc : GoesOn c behind) : ∃ tail,
      (lines (column ++ c :: behind)).head? = some (column ++ c :: tail) := by
  induction column with
  | nil => exact ⟨_, congrArg List.head? (lines_cons hc)⟩
  | cons d column ih =>
    rw [List.mem_cons, not_or] at h
    obtain ⟨tail, ht⟩ := ih h.2
    have hgoes : GoesOn d (column ++ c :: behind) := by
      refine ⟨Ne.symm h.1, ?_⟩
      intro more _ hm
      cases column with
      | nil => exact hc.1 (List.cons.inj hm).1
      | cons e column =>
        rw [(List.cons.inj hm).1] at h
        exact h.2 List.mem_cons_self
    refine ⟨tail, ?_⟩
    rw [List.cons_append, lines_cons hgoes, List.headD_eq_head?_getD, ht]
    rfl

/-- What is before a place, up to its line and in its line. -/
theorem exists_column (before : List Char) : ∃ front column, before = front ++ column ∧
    (front = [] ∨ front.getLast? = some '\n') ∧ '\n' ∉ column := by
  induction before with
  | nil => exact ⟨[], [], rfl, Or.inl rfl, by simp⟩
  | cons c before ih =>
    obtain ⟨front, column, rfl, hfront, hcolumn⟩ := ih
    rcases hfront with rfl | hlast
    · by_cases hc : c = '\n'
      · exact ⟨[c], column, rfl, Or.inr (congrArg some hc), hcolumn⟩
      · refine ⟨[], c :: column, rfl, Or.inl rfl, ?_⟩
        rw [List.mem_cons, not_or]
        exact ⟨Ne.symm hc, hcolumn⟩
    · refine ⟨c :: front, column, rfl, Or.inr ?_, hcolumn⟩
      rw [List.getLast?_cons, hlast]
      rfl

/-- The line of a place begins with what is before the place since the last newline. -/
theorem getElem?_lines {front column : List Char}
    (hfront : front = [] ∨ front.getLast? = some '\n') (hcolumn : '\n' ∉ column) {c : Char}
    {behind : List Char} (hc : GoesOn c behind) : ∃ tail,
      (lines (front ++ column ++ c :: behind))[front.count '\n']? =
        some (column ++ c :: tail) := by
  obtain ⟨tail, ht⟩ := lines_append_of_not_mem hcolumn hc
  refine ⟨tail, ?_⟩
  rcases hfront with rfl | hlast
  · rw [List.nil_append, List.count_nil, ← List.head?_eq_getElem?]
    exact ht
  · obtain ⟨outer, rfl⟩ := List.getLast?_eq_some_iff.mp hlast
    have hdrop := drop_lines outer (column ++ c :: behind)
    have hcount : (outer ++ ['\n']).count '\n' = outer.count '\n' + 1 := by
      rw [List.count_append, List.count_singleton_self]
    rw [List.append_assoc, List.append_assoc, List.singleton_append, hcount, ← ht, ← hdrop,
      List.head?_drop]

end MarkupAudit.Text
