/-!
White space: the characters that separate words or lines in any script. Zero-width characters
are not among them.
-/

namespace MarkupAudit.Text

/-- First and last code points of the runs of white space. -/
def blanks : List (Nat × Nat) :=
  [(0x0009, 0x000D), (0x0020, 0x0020), (0x0085, 0x0085), (0x00A0, 0x00A0), (0x1680, 0x1680),
   (0x2000, 0x200A), (0x2028, 0x2029), (0x202F, 0x202F), (0x205F, 0x205F), (0x3000, 0x3000)]

def isBlank (c : Char) : Bool :=
  blanks.any fun run => run.1 ≤ c.toNat && c.toNat ≤ run.2

theorem isBlank_iff {c : Char} :
    isBlank c = true ↔ ∃ run ∈ blanks, run.1 ≤ c.toNat ∧ c.toNat ≤ run.2 := by
  simp [isBlank]

theorem isBlank_of_isWhitespace {c : Char} (h : c.isWhitespace = true) : isBlank c = true := by
  simp only [Char.isWhitespace, Bool.or_eq_true, decide_eq_true_eq] at h
  rcases h with ((rfl | rfl) | rfl) | rfl <;> decide

end MarkupAudit.Text
