import MarkupAudit.Proofs.Search
import Mathlib.Data.List.Forall2

/-!
The choice among matches in two texts at once. Where the matches of one text correspond to those of
another, one to one and in an order that both texts share, the same ones are chosen in both
(`select_forall₂`). Where the second list goes on behind the first, so do the choices
(`select_kept`).
-/

namespace MarkupAudit.Match

variable {P : Match → Match → Prop}

/-- Corresponding matches are chosen when both searches go on at corresponding places. -/
theorem select_forall₂ (horder : ∀ m m' n n', P m m' → P n n' →
      (m.resume ≤ n.start.offset ↔ m'.resume ≤ n'.start.offset))
    {ms ms' : List Match} (h : List.Forall₂ P ms ms') {lower lower' : Nat}
    (hlower : ∀ n n', P n n' → (lower ≤ n.start.offset ↔ lower' ≤ n'.start.offset)) :
    List.Forall₂ P (select lower ms) (select lower' ms') := by
  induction h generalizing lower lower' with
  | nil => exact .nil
  | @cons m m' ms ms' hm _ ih =>
    rw [select, select]
    by_cases hle : lower ≤ m.start.offset
    · rw [if_pos hle, if_pos ((hlower m m' hm).mp hle)]
      apply List.Forall₂.cons hm
      apply ih
      intro n n' hn
      exact horder m m' n n' hm hn
    · rw [if_neg hle, if_neg (mt (hlower m m' hm).mpr hle)]
      exact ih hlower

/-- Matches that are moved or made longer alike are chosen as they were. -/
theorem select_map {f : Match → Match}
    (horder : ∀ m n, m.resume ≤ n.start.offset ↔ (f m).resume ≤ (f n).start.offset)
    {lower lower' : Nat} (hlower : ∀ n, lower ≤ n.start.offset ↔ lower' ≤ (f n).start.offset)
    (ms : List Match) : select lower' (ms.map f) = (select lower ms).map f := by
  have hmoved : List.Forall₂ (fun m m' => f m = m') ms (ms.map f) :=
    List.forall₂_map_right_iff.mpr (List.forall₂_same.mpr fun _ _ => rfl)
  have hchosen : List.Forall₂ (fun m m' => f m = m') (select lower ms) (select lower' (ms.map f)) := by
    apply select_forall₂ _ hmoved
    · rintro n _ rfl
      exact hlower n
    · rintro m _ n _ rfl rfl
      exact horder m n
  rw [← List.forall₂_map_left_iff, List.forall₂_eq_eq_eq] at hchosen
  exact hchosen.symm

/-- The matches of the first list start where the first ones of the second do. Each lets the search
go on at the same byte in both, or else covers all that come behind it in the first list. -/
inductive Continues : List Match → List Match → Prop
  | nil (ms' : List Match) : Continues [] ms'
  | cons {m m' : Match} {ms ms' : List Match} (hstart : m.start.offset = m'.start.offset)
      (hresume : m.resume = m'.resume ∨ ∀ n ∈ ms, n.start.offset < m.resume)
      (h : Continues ms ms') : Continues (m :: ms) (m' :: ms')

/-- Nothing that another match covers is chosen behind it. -/
theorem select_eq_nil {lower : Nat} {ms : List Match} (h : ∀ m ∈ ms, m.start.offset < lower) :
    select lower ms = [] := by
  have hselect : select lower (ms ++ []) = select lower [] := select_of_lt h
  rw [List.append_nil] at hselect
  exact hselect

theorem select_kept {ms ms' : List Match} (h : Continues ms ms') (lower : Nat) :
    (select lower ms).map (·.start.offset) <+: (select lower ms').map (·.start.offset) := by
  induction h generalizing lower with
  | nil ms' => exact List.nil_prefix
  | @cons m m' ms ms' hstart hresume _ ih =>
    rw [select, select, ← hstart]
    by_cases hle : lower ≤ m.start.offset
    · rw [if_pos hle, if_pos hle, List.map_cons, List.map_cons]
      apply List.cons_prefix_cons.mpr
      refine ⟨hstart, ?_⟩
      rcases hresume with hsame | hcovered
      · rw [← hsame]
        exact ih m.resume
      · rw [select_eq_nil hcovered]
        exact List.nil_prefix
    · rw [if_neg hle, if_neg hle]
      exact ih lower

end MarkupAudit.Match
