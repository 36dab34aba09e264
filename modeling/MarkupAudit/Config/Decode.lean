import MarkupAudit.Config
import MarkupAudit.Decimal.Shortest
import MarkupAudit.Text.Quoted
import MarkupAudit.Toml.Diagnostic
import MarkupAudit.Toml.Document

/-!
The configuration that a TOML document describes. Only the keys `extensions` and `exclude` at the
top of the document count; each is an array of strings or absent. Of several bad values the first in
the document is reported.
-/

namespace MarkupAudit.Config

open Toml (Node Scalar Entries)

inductive Wanted where
  | sequence
  | string
deriving DecidableEq, Repr

def Wanted.name : Wanted → String
  | sequence => "a sequence"
  | string => "a string"

inductive DecodeError where
  | notToml
  /-- A value of another kind than wanted, with its span and its description. -/
  | wrongType (span : Span) (got : String) (wanted : Wanted)
deriving DecidableEq, Repr

def describeScalar : Scalar → String
  | .string text => "string " ++ String.ofList (Text.quoted text)
  | .integer n => "integer `" ++ toString n ++ "`"
  | .float x => "floating point `" ++ String.ofList x.render ++ "`"
  | .boolean b => "boolean `" ++ (if b then "true" else "false") ++ "`"
  | .moment => "map"

def describe : Node → String
  | .scalar s => describeScalar s
  | .list _ => "sequence"
  | .tables _ => "sequence"
  | .table _ _ => "map"

def wrongType (outer : Span) (span : Option Span) (node : Node) (wanted : Wanted) : DecodeError :=
  .wrongType (span.getD outer) (describe node) wanted

/-- An item of an array. An item without a span of its own is reported at the array. -/
def decodeString (outer : Span) (item : Option Span × Node) : Except DecodeError String :=
  match item.2 with
  | .scalar (.string text) => .ok (String.ofList text)
  | node => .error (wrongType outer item.1 node .string)

def decodeStrings (key : Span) (span : Option Span) (node : Node) :
    Except DecodeError (List String) :=
  match node with
  | .list items => items.mapM (decodeString (span.getD key))
  | .tables items => items.mapM (decodeString (span.getD key))
  | node => .error (wrongType key span node .sequence)

def decodeEntry (config : Config) (entry : Toml.Key × Option Span × Node) :
    Except DecodeError Config := do
  let (key, span, node) := entry
  if key.text = "extensions".toList then
    return { config with extensions := ← decodeStrings key.span span node }
  else if key.text = "exclude".toList then
    return { config with exclude := ← decodeStrings key.span span node }
  else return config

/-- The configuration of a document as it is written, without any change to the extensions. -/
def decode (text : List Char) : Except DecodeError Config :=
  match Toml.parse text with
  | none => .error .notToml
  | some entries => entries.foldlM decodeEntry default

/-- The account of an error. A bad value is pointed at; of a text that is no document nothing more
is told. -/
def DecodeError.message (text : List Char) : DecodeError → String
  | .notToml => "TOML parse error\n"
  | .wrongType span got wanted =>
    Toml.diagnostic text span ("invalid type: " ++ got ++ ", expected " ++ wanted.name)

end MarkupAudit.Config
