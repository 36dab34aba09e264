import MarkupAudit.Toml.Moment
import MarkupAudit.Toml.Node

/-!
Reading a TOML document. The entries before the first header belong to the document itself; each
header opens a table, which is put in its place when the next header comes or the document ends.
Values may be nested up to a limit, and a key has at most as many parts.
-/

namespace MarkupAudit.Toml

def depthLimit : Nat := 79

def isKeyChar (c : Char) : Bool := c.isAlphanum || c == '_' || c == '-'

def simpleKey (cur : Cursor) : Option (Key × Cursor) := do
  let (text, next) ← match shortQuotation cur with
    | some found => some found
    | none =>
      let (text, next) := cur.takeWhile isKeyChar
      if text.isEmpty then none else some (text, next)
  some (⟨text, ⟨cur.offset, next.offset⟩⟩, next)

/-- The parts of a key that follow the first, each after a point. -/
def moreKeys : Nat → Cursor → Option (List Key × Cursor)
  | 0, cur => some ([], cur)
  | fuel + 1, cur =>
    match cur.expect '.' with
    | none => some ([], cur)
    | some next => do
      let (key, next) ← simpleKey (skipBlanks next)
      let (keys, next) ← moreKeys fuel (skipBlanks next)
      some (key :: keys, next)

/-- A key with all its parts: the path to a table, and the last part. -/
def dottedKey (cur : Cursor) : Option (List Key × Key × Cursor) := do
  let (first, next) ← simpleKey (skipBlanks cur)
  let next := skipBlanks next
  let (more, next) ← moreKeys next.rest.length next
  let keys := first :: more
  if keys.length ≤ depthLimit then some (keys.dropLast, (← keys.getLast?), next) else none

abbrev ValueReader := Cursor → Option (Node × Cursor)

def spanned (value : ValueReader) (cur : Cursor) : Option (Span × Node × Cursor) := do
  let (node, next) ← value cur
  some (⟨cur.offset, next.offset⟩, node, next)

def items (value : ValueReader) : Nat → Cursor → Option (List (Option Span × Node) × Cursor)
  | 0, _ => none
  | fuel + 1, cur =>
    let cur := skipSpace cur
    match cur.expect ']' with
    | some next => some ([], next)
    | none => do
      let (span, node, next) ← spanned value cur
      let next := skipSpace next
      match next.expect ',' with
      | some next =>
        let (more, last) ← items value fuel next
        some ((some span, node) :: more, last)
      | none => some ([(some span, node)], ← next.expect ']')

/-- A key, the sign of equality, and a value. -/
def entry (value : ValueReader) (cur : Cursor) :
    Option (List Key × Key × Span × Node × Cursor) := do
  let (path, key, next) ← dottedKey cur
  let (span, node, next) ← spanned value (skipBlanks (← next.expect '='))
  some (path, key, span, node, next)

/-- The entries of a table in braces up to its closing brace, added to those before. -/
def inlineEntries (value : ValueReader) : Nat → Entries → Cursor → Option (Entries × Cursor)
  | 0, _, _ => none
  | fuel + 1, entries, cur => do
    let (path, key, span, node, next) ← entry value cur
    let (_, entries) ← addEntry path key span node .inline entries
    let next := skipBlanks next
    match next.expect ',' with
    | some next => inlineEntries value fuel entries next
    | none => some (entries, ← next.expect '\x7d')

def inlineTable (value : ValueReader) (cur : Cursor) : Option (Node × Cursor) :=
  match (skipBlanks cur).expect '\x7d' with
  | some next => some (.table .inline [], next)
  | none => do
    let (entries, next) ← inlineEntries value cur.rest.length [] cur
    some (.table .inline entries, next)

def scalar (cur : Cursor) : Option (Scalar × Cursor) :=
  match quotation cur with
  | some (text, next) => some (.string text, next)
  | none =>
    match cur.expectAll "true".toList, cur.expectAll "false".toList with
    | some next, _ => some (.boolean true, next)
    | none, some next => some (.boolean false, next)
    | none, none =>
      match moment cur with
      | some next => some (.moment, next)
      | none =>
        match float cur with
        | some (x, next) => some (.float x, next)
        | none => (integer cur).map fun (n, next) => (.integer n, next)

/-- A value; `depth` tells how many levels of arrays and tables in braces it may hold. -/
def value : Nat → ValueReader
  | 0, cur => do
    let (s, next) ← scalar cur
    some (.scalar s, next)
  | depth + 1, cur =>
    match cur.expect '[', cur.expect '\x7b' with
    | some next, _ => do
      let (nodes, last) ← items (value depth) (next.rest.length + 1) next
      some (.list nodes, last)
    | none, some next => inlineTable (value depth) next
    | none, none => do
      let (s, next) ← scalar cur
      some (.scalar s, next)

/-- A header: whether it is in double brackets, its key, and its span. -/
structure Header where
  double : Bool
  path : List Key
  key : Key
  span : Span

def header (cur : Cursor) : Option (Header × Cursor) := do
  let inside ← cur.expect '['
  match inside.expect '[' with
  | some inside =>
    let (path, key, next) ← dottedKey inside
    let next ← next.expectAll [']', ']']
    some (⟨true, path, key, ⟨cur.offset, next.offset⟩⟩, next)
  | none =>
    let (path, key, next) ← dottedKey inside
    let next ← next.expect ']'
    some (⟨false, path, key, ⟨cur.offset, next.offset⟩⟩, next)

/-- A document as far as it has been read: the tables in their places, and the table to which
entries are added, which has no header at first. -/
structure Draft where
  root : Entries
  current : Option Header
  entries : Entries

namespace Draft

def empty : Draft := ⟨[], none, []⟩

def close (draft : Draft) : Option Entries :=
  match draft.current with
  | none => some draft.entries
  | some h => do
    let (_, root) ← (if h.double then closeTables else closeTable) h.path h.key h.span draft.entries
      .header draft.root
    some root

def start (draft : Draft) (h : Header) : Option Draft := do
  let root ← draft.close
  let (entries, root) ← (if h.double then openTables else openTable) h.path h.key .header root
  some ⟨root, some h, entries⟩

/-- Adds an entry to the current table, which then reaches to the end of its value. -/
def add (draft : Draft) (path : List Key) (key : Key) (span : Span) (node : Node) :
    Option Draft := do
  let (_, entries) ← addEntry path key span node .header draft.entries
  let current := draft.current.map fun h => { h with span := ⟨h.span.start, span.stop⟩ }
  some ⟨draft.root, current, entries⟩

end Draft

def lines : Nat → Draft → Cursor → Option Draft
  | 0, _, _ => none
  | fuel + 1, draft, cur =>
    let cur := skipBlanks cur
    match cur.uncons with
    | none => some draft
    | some (c, _) =>
      if c = '#' ∨ c = '\n' ∨ c = '\r' then do
        lines fuel draft (← trailing cur)
      else if c = '[' then do
        let (h, next) ← header cur
        let next ← trailing next
        lines fuel (← draft.start h) next
      else do
        let (path, key, span, node, next) ← entry (value depthLimit) cur
        let next ← trailing next
        lines fuel (← draft.add path key span node) next

/-- The entries of a document; nothing when the text is no document. A byte order mark may come
first. -/
def parse (text : List Char) : Option Entries := do
  let start := Cursor.ofText text
  let start := (start.expect '\uFEFF').getD start
  (← lines (text.length + 1) .empty start).close

end MarkupAudit.Toml
