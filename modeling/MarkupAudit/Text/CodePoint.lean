/-!
Spelling a character by its code point, in lower-case hexadecimal digits.
-/

namespace MarkupAudit.Text

def codePoint (c : Char) : List Char := Nat.toDigits 16 c.toNat

/-- The code point in braces, with as many digits as it needs. -/
def bracedCodePoint (c : Char) : List Char := ['\\', 'u', '\x7b'] ++ codePoint c ++ ['\x7d']

/-- The code point of a character below U+0100 in two digits. -/
def byteCodePoint (c : Char) : List Char :=
  ['\\', 'x', Nat.digitChar (c.toNat / 16), Nat.digitChar (c.toNat % 16)]

end MarkupAudit.Text
