/-!
Letters compared without regard to case. Two characters count as the same letter when simple case
folding sends them to the same place; besides the ASCII pairs, the long s folds to `s` and the
Kelvin sign to `k`. For a letter outside ASCII only the letter itself is recognised, so the
patterns of this library name ASCII letters alone.
-/

namespace MarkupAudit.Text

def fold (c : Char) : Char :=
  if c = '\u017F' then 's' else if c = '\u212A' then 'k' else c.toLower

/-- Whether `c` is the letter `letter` in either case. -/
def sameLetter (letter c : Char) : Bool := fold c == fold letter

theorem sameLetter_iff {letter c : Char} : sameLetter letter c = true ↔ fold c = fold letter := by
  simp [sameLetter]

theorem sameLetter_self (c : Char) : sameLetter c c = true := by simp [sameLetter]

end MarkupAudit.Text
