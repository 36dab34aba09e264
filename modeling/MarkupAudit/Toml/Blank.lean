import MarkupAudit.Text.Cursor

/-!
What stands between the tokens of a TOML document: blanks, comments and line ends. Readers take a
place and give the place after what they have read, or nothing when it is not there.
-/

namespace MarkupAudit.Toml

def isBlank (c : Char) : Bool := c == ' ' || c == '\t'

/-- No control character but the tab. -/
def isPlain (c : Char) : Bool := c == '\t' || (0x20 ≤ c.toNat && c.toNat ≠ 0x7F)

def skipBlanks (cur : Cursor) : Cursor := cur.skipWhile isBlank

def newline (cur : Cursor) : Option Cursor := (cur.expect '\n').or (cur.expectAll ['\r', '\n'])

def lineEnd (cur : Cursor) : Option Cursor := if cur.rest.isEmpty then some cur else newline cur

def skipComment (cur : Cursor) : Cursor :=
  match cur.expect '#' with
  | none => cur
  | some inside => inside.skipWhile isPlain

/-- The rest of a line after an entry: blanks and a comment. -/
def trailing (cur : Cursor) : Option Cursor := lineEnd (skipComment (skipBlanks cur))

/-- Skips blanks, comments and newlines. A comment runs up to a newline. -/
def skipLines : Nat → Cursor → Cursor
  | 0, cur => cur
  | fuel + 1, cur =>
    let here := skipBlanks cur
    match newline (skipComment here) with
    | none => here
    | some next => skipLines fuel next

/-- Skips blanks, comments and newlines, as they may stand between the items of an array. -/
def skipSpace (cur : Cursor) : Cursor := skipLines (cur.rest.length + 1) cur

end MarkupAudit.Toml
