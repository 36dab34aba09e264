import MarkupAudit.Decimal.Binary64
import MarkupAudit.Text.Span

/-!
The content of a TOML document: values, and tables of values in the order of their keys. A table
remembers how it came to be, because that decides what may still be added to it.
-/

namespace MarkupAudit.Toml

open Decimal (Binary64)

inductive Scalar where
  | string (text : List Char)
  | integer (n : Int)
  | float (x : Binary64)
  | boolean (b : Bool)
  | moment

structure Key where
  text : List Char
  span : Span

inductive Origin where
  /-- Written in braces; it is complete. -/
  | inline
  /-- Opened by a header of its own, or the document itself. -/
  | header
  /-- Named on the way to the table of another header. -/
  | implied
  /-- Named on the way to a value by a dotted key. -/
  | dotted
deriving DecidableEq

/-- A node, and with each of its parts where it is written, if it is written in one place. -/
inductive Node where
  | scalar (value : Scalar)
  /-- Items in brackets. -/
  | list (items : List (Option Span × Node))
  /-- Tables that headers in double brackets have opened one after the other. -/
  | tables (items : List (Option Span × Node))
  | table (origin : Origin) (entries : List (Key × Option Span × Node))

abbrev Entries := List (Key × Option Span × Node)

namespace Entries

def get? (entries : Entries) (key : List Char) : Option (Option Span × Node) :=
  (entries.find? fun entry => entry.1.text == key).map (·.2)

def replace (entries : Entries) (key : List Char) (node : Node) : Entries :=
  entries.map fun entry => if entry.1.text == key then (entry.1, entry.2.1, node) else entry

def remove (entries : Entries) (key : List Char) : Entries :=
  entries.filter fun entry => entry.1.text != key

def add (entries : Entries) (key : Key) (span : Option Span) (node : Node) : Entries :=
  entries ++ [(key, span, node)]

end Entries

/-- A change of the entries of a table that gives a result as well, or is not allowed. -/
abbrev Change (α : Type) := Origin → Entries → Option (α × Entries)

/-- Follows a path of keys and changes the table at its end. Tables that are missing on the way are
made. Of tables in double brackets the last one is entered. A table in braces is complete, and a
dotted key does not enter a table that has a header of its own. -/
def follow {α : Type} (dotted : Bool) (change : Change α) : List Key → Change α
  | [], origin, entries => change origin entries
  | key :: path, _, entries =>
    match entries.get? key.text with
    | none => do
      let origin := if dotted then Origin.dotted else Origin.implied
      let (result, inner) ← follow dotted change path origin []
      some (result, entries.add key none (.table origin inner))
    | some (_, .table origin inner) =>
      if origin = .inline ∨ (dotted ∧ origin = .header) then none
      else do
        let (result, inner) ← follow dotted change path origin inner
        some (result, entries.replace key.text (.table origin inner))
    | some (_, .tables items) =>
      match items.getLast? with
      | some (span, .table origin inner) => do
        let (result, inner) ← follow dotted change path origin inner
        some (result,
          entries.replace key.text (.tables (items.dropLast ++ [(span, .table origin inner)])))
      | _ => none
    | some (_, .scalar _) => none
    | some (_, .list _) => none

/-- Adds an entry to a table. A path of a dotted key must end in a table made by dotted keys, and
no key is given twice. -/
def addEntry (path : List Key) (key : Key) (span : Span) (node : Node) : Change Unit :=
  follow true (fun origin entries =>
    if (origin = .dotted ↔ path = []) then none
    else if (entries.get? key.text).isSome then none
    else some ((), entries.add key (some span) node)) path

/-- Makes way for a table with a header. Only a table that was merely implied may be there; its
entries are taken over. -/
def openTable (path : List Key) (key : Key) : Change Entries :=
  follow false (fun _ entries =>
    match entries.get? key.text with
    | none => some ([], entries)
    | some (_, .table .implied inner) => some (inner, entries.remove key.text)
    | some _ => none) path

def closeTable (path : List Key) (key : Key) (span : Span) (inner : Entries) : Change Unit :=
  follow false (fun _ entries =>
    if (entries.get? key.text).isSome then none
    else some ((), entries.add key (some span) (.table .header inner))) path

/-- Makes sure that there is a list of tables under a key. -/
def openTables (path : List Key) (key : Key) : Change Entries :=
  follow false (fun _ entries =>
    match entries.get? key.text with
    | none => some ([], entries.add key none (.tables []))
    | some (_, .tables _) => some ([], entries)
    | some _ => none) path

def closeTables (path : List Key) (key : Key) (span : Span) (inner : Entries) : Change Unit :=
  follow false (fun _ entries =>
    match entries.get? key.text with
    | some (_, .tables items) =>
      some ((), entries.replace key.text (.tables (items ++ [(some span, .table .header inner)])))
    | _ => none) path

end MarkupAudit.Toml
