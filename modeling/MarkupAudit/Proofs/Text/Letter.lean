import MarkupAudit.Text.Fold

/-!
Letters and their spellings. Only ASCII capitals change when they are made small
(`mem_capitals`), so what holds of all capitals holds of all that case can change, and a letter has
but a few spellings (`mem_spellings`).
-/

namespace MarkupAudit.Text

def capitals : List Char := "ABCDEFGHIJKLMNOPQRSTUVWXYZ".toList

theorem mem_capitals {c : Char} (h : c.toLower ≠ c) : c ∈ capitals := by
  have hrange : 65 ≤ c.toNat ∧ c.toNat ≤ 90 := by
    have hc : 65 ≤ c.val ∧ c.val ≤ 90 :=
      Decidable.byContradiction fun hno => h (dif_neg hno)
    exact ⟨UInt32.le_iff_toNat_le.mp hc.1, UInt32.le_iff_toNat_le.mp hc.2⟩
  have hall : ∀ i < 26, Char.ofNat (65 + i) ∈ capitals := by decide
  have hmem := hall (c.toNat - 65) (by omega)
  rw [Nat.add_sub_cancel' hrange.1, Char.ofNat_toNat] at hmem
  exact hmem

/-- What does not tell any capital from its small letter does not depend on case. -/
theorem eq_of_toLower_eq {β : Type} (f : Char → β)
    (hf : capitals.map f = capitals.map fun c => f c.toLower) {c c' : Char}
    (h : c.toLower = c'.toLower) : f c = f c' := by
  have hlower : ∀ c : Char, f c = f c.toLower := by
    intro c
    by_cases hc : c.toLower = c
    · rw [hc]
    · exact List.map_inj_left.mp hf c (mem_capitals hc)
  rw [hlower c, hlower c', h]

/-- The characters that count as a letter. -/
def spellings (letter : Char) : List Char :=
  (fold letter :: '\u017F' :: '\u212A' :: capitals).filter (sameLetter letter)

theorem mem_spellings {letter c : Char} (h : sameLetter letter c = true) :
    c ∈ spellings letter := by
  refine List.mem_filter.mpr ⟨?_, h⟩
  simp only [List.mem_cons]
  rw [sameLetter_iff, fold] at h
  split at h
  · rename_i hc
    exact Or.inr (Or.inl hc)
  · split at h
    · rename_i hc
      exact Or.inr (Or.inr (Or.inl hc))
    · by_cases hc : c.toLower = c
      · exact Or.inl (hc.symm.trans h)
      · exact Or.inr (Or.inr (Or.inr (mem_capitals hc)))

end MarkupAudit.Text
