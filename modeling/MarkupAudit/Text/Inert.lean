import MarkupAudit.Text.CodePoint

/-!
Text that a terminal takes for text and nothing else. The characters that ring its bell, move its
cursor or begin a command to it are spelled by their code points; tabs and line ends are kept.
-/

namespace MarkupAudit.Text

/-- The bell, the backspace, the form feed, the escape and the deletion. -/
def commands : List Char := ['\x07', '\x08', '\x0c', '\x1b', '\x7f']

/-- Whether a character is one of the second set of control characters. -/
def isLateControl (c : Char) : Bool := 0x80 ≤ c.toNat && c.toNat ≤ 0x9F

def inertChar (c : Char) : List Char :=
  if c ∈ commands then byteCodePoint c
  else if isLateControl c then bracedCodePoint c
  else [c]

def inert (text : List Char) : List Char := text.flatMap inertChar

theorem inertChar_of_printable {c : Char} (h : 0x20 ≤ c.toNat ∧ c.toNat < 0x7F) :
    inertChar c = [c] := by
  have hc : c ∉ commands := by
    intro hm
    simp only [commands, List.mem_cons, List.not_mem_nil, or_false] at hm
    rcases hm with rfl | rfl | rfl | rfl | rfl <;> exact absurd h (by decide)
  have hl : isLateControl c = false := by
    simp only [isLateControl, Bool.and_eq_false_iff, decide_eq_false_iff_not]
    omega
  simp [inertChar, hc, hl]

end MarkupAudit.Text
