import MarkupAudit.Json.Value

/-!
Writing JSON over several lines: two blanks for each level, one item or member a line, and nothing
between the brackets of an empty array or object. In a string only the quote, the backslash and the
control characters below the blank are escaped.
-/

namespace MarkupAudit.Json

def hex4 (n : Nat) : List Char :=
  [Nat.digitChar (n / 4096 % 16), Nat.digitChar (n / 256 % 16), Nat.digitChar (n / 16 % 16),
   Nat.digitChar (n % 16)]

def escape (c : Char) : List Char :=
  if c = '"' then ['\\', '"']
  else if c = '\\' then ['\\', '\\']
  else if c = '\x08' then ['\\', 'b']
  else if c = '\x0c' then ['\\', 'f']
  else if c = '\n' then ['\\', 'n']
  else if c = '\r' then ['\\', 'r']
  else if c = '\t' then ['\\', 't']
  else if c.toNat < 0x20 then '\\' :: 'u' :: hex4 c.toNat
  else [c]

def renderString (text : List Char) : List Char := '"' :: text.flatMap escape ++ ['"']

def newline (level : Nat) : List Char := '\n' :: List.replicate (2 * level) ' '

mutual

def render (level : Nat) : Value → List Char
  | .null => "null".toList
  | .bool true => "true".toList
  | .bool false => "false".toList
  | .number digits => digits
  | .string text => renderString text
  | .array [] => ['[', ']']
  | .array (item :: items) =>
    '[' :: newline (level + 1) ++ render (level + 1) item ++ renderItems (level + 1) items ++
      newline level ++ [']']
  | .object [] => ['\x7b', '\x7d']
  | .object (member :: members) =>
    '\x7b' :: newline (level + 1) ++ renderMember (level + 1) member ++
      renderMembers (level + 1) members ++ newline level ++ ['\x7d']

def renderItems (level : Nat) : List Value → List Char
  | [] => []
  | item :: items => ',' :: newline level ++ render level item ++ renderItems level items

def renderMember (level : Nat) : List Char × Value → List Char
  | (key, value) => renderString key ++ ':' :: ' ' :: render level value

def renderMembers (level : Nat) : List (List Char × Value) → List Char
  | [] => []
  | member :: members =>
    ',' :: newline level ++ renderMember level member ++ renderMembers level members

end

def Value.pretty (value : Value) : String := String.ofList (render 0 value)

end MarkupAudit.Json
