import MarkupAudit.Toml.Blank

/-!
The four ways to write a string in TOML: on one line or over several lines, and in double quotes
with escapes or in single quotes without.
-/

namespace MarkupAudit.Toml

def hexDigit? (c : Char) : Option Nat :=
  if '0' ≤ c ∧ c ≤ '9' then some (c.toNat - 0x30)
  else if 'a' ≤ c ∧ c ≤ 'f' then some (c.toNat - 0x61 + 10)
  else if 'A' ≤ c ∧ c ≤ 'F' then some (c.toNat - 0x41 + 10)
  else none

/-- Reads exactly `count` hexadecimal digits after the value `acc`. -/
def hexDigits : Nat → Nat → Cursor → Option (Nat × Cursor)
  | 0, acc, cur => some (acc, cur)
  | count + 1, acc, cur => do
    let (c, next) ← cur.uncons
    hexDigits count (16 * acc + (← hexDigit? c)) next

def codePoint (count : Nat) (cur : Cursor) : Option (Char × Cursor) := do
  let (n, next) ← hexDigits count 0 cur
  if n.isValidChar then some (Char.ofNat n, next) else none

/-- The character that an escape stands for; the backslash has been read. -/
def escape (cur : Cursor) : Option (Char × Cursor) := do
  let (c, next) ← cur.uncons
  match c with
  | 'b' => some ('\x08', next)
  | 't' => some ('\t', next)
  | 'n' => some ('\n', next)
  | 'f' => some ('\x0c', next)
  | 'r' => some ('\r', next)
  | '"' => some ('"', next)
  | '\\' => some ('\\', next)
  | 'u' => codePoint 4 next
  | 'U' => codePoint 8 next
  | _ => none

def basicText : Nat → Cursor → Option (List Char × Cursor)
  | 0, _ => none
  | fuel + 1, cur => do
    let (c, next) ← cur.uncons
    if c = '"' then some ([], next)
    else if c = '\\' then
      let (x, after) ← escape next
      let (text, last) ← basicText fuel after
      some (x :: text, last)
    else if isPlain c then
      let (text, last) ← basicText fuel next
      some (c :: text, last)
    else none

def literalText (cur : Cursor) : Option (List Char × Cursor) := do
  let (text, next) := cur.takeWhile fun c => isPlain c && c != '\''
  some (text, ← next.expect '\'')

/-- A run of quotes inside a string over several lines. Three close the string; before them up to
two belong to its text. -/
def closing (quote : Char) (cur : Cursor) : Option (List Char × Cursor) := do
  let run := min 5 (cur.takeWhile (· == quote)).1.length
  if run < 3 then none
  else some (List.replicate (run - 3) quote, ← cur.expectAll (List.replicate run quote))

def skipEmptyLines : Nat → Cursor → Cursor
  | 0, cur => cur
  | fuel + 1, cur =>
    let here := skipBlanks cur
    match newline here with
    | none => here
    | some next => skipEmptyLines fuel next

/-- The place after a line end that is escaped, with all blanks and newlines that follow. -/
def foldedLine (cur : Cursor) : Option Cursor := do
  let next ← newline (skipBlanks cur)
  some (skipEmptyLines (next.rest.length + 1) next)

def longText (quote : Char) (escapes : Bool) : Nat → Cursor → Option (List Char × Cursor)
  | 0, _ => none
  | fuel + 1, cur =>
    match closing quote cur with
    | some found => some found
    | none => do
      let (c, next) ← cur.uncons
      if c = '\\' ∧ escapes then
        match foldedLine next with
        | some after => longText quote escapes fuel after
        | none =>
          let (x, after) ← escape next
          let (text, last) ← longText quote escapes fuel after
          some (x :: text, last)
      else if isPlain c then
        let (text, last) ← longText quote escapes fuel next
        some (c :: text, last)
      else
        let after ← newline cur
        let (text, last) ← longText quote escapes fuel after
        some ('\n' :: text, last)

/-- A string over several lines; a newline right after the opening quotes does not count. -/
def longQuotation (quote : Char) (escapes : Bool) (cur : Cursor) : Option (List Char × Cursor) := do
  let inside ← cur.expectAll [quote, quote, quote]
  let start := (newline inside).getD inside
  longText quote escapes (start.rest.length + 1) start

def shortQuotation (cur : Cursor) : Option (List Char × Cursor) := do
  let (c, next) ← cur.uncons
  if c = '"' then basicText next.rest.length next
  else if c = '\'' then literalText next
  else none

def quotation (cur : Cursor) : Option (List Char × Cursor) :=
  (longQuotation '"' true cur).or <| (longQuotation '\'' false cur).or (shortQuotation cur)

end MarkupAudit.Toml
