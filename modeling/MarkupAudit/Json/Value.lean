/-!
JSON documents. Members of an object keep their order, and a number keeps the digits it is written
with.
-/

namespace MarkupAudit.Json

inductive Value where
  | null
  | bool (b : Bool)
  | number (digits : List Char)
  | string (text : List Char)
  | array (items : List Value)
  | object (members : List (List Char × Value))

namespace Value

def ofNat (n : Nat) : Value := number n.repr.toList

def ofString (text : String) : Value := string text.toList

/-- An object whose keys are given as strings. -/
def ofMembers (members : List (String × Value)) : Value :=
  object (members.map fun member => (member.1.toList, member.2))

end Value

end MarkupAudit.Json
