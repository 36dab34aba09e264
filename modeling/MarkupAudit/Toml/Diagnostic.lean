import MarkupAudit.Text.Cursor
import MarkupAudit.Text.Span

/-!
Pointing at a place in a document: the number of its line and column, the line itself, and a row of
carets below it. There is a caret for each byte of the span, but not for more than the line has
bytes beyond the number of its characters before the span, and always at least one.
-/

namespace MarkupAudit.Toml

/-- The lines of a text; a carriage return stays at the end of its line. -/
def rawLines : List Char → List (List Char)
  | [] => [[]]
  | c :: rest =>
    if c = '\n' then [] :: rawLines rest
    else
      match rawLines rest with
      | [] => [[c]]
      | line :: more => (c :: line) :: more

/-- The characters before a byte of a text. -/
def before : Nat → List Char → List Char
  | _, [] => []
  | bytes, c :: rest => if bytes = 0 then [] else c :: before (bytes - c.utf8Size) rest

/-- The text that reports a problem at a span of a document. -/
def diagnostic (document : List Char) (span : Span) (reason : String) : String :=
  let above := rawLines (before span.start document)
  let line := above.length
  let column := ((above.getLast?).getD []).length
  let content := ((rawLines document)[line - 1]?).getD []
  let number := toString line
  let gutter := String.ofList (List.replicate (number.length + 1) ' ') ++ "|"
  let carets := max 1 (min (span.stop - span.start) (Text.byteLength content - column))
  "TOML parse error at line " ++ number ++ ", column " ++ toString (column + 1) ++ "\n" ++
    gutter ++ "\n" ++
    number ++ " | " ++ String.ofList content ++ "\n" ++
    gutter ++ String.ofList (List.replicate (column + 1) ' ') ++
      String.ofList (List.replicate carets '^') ++ "\n" ++
    reason ++ "\n"

end MarkupAudit.Toml
