/-!
What a command line asks for.
-/

namespace MarkupAudit.CommandLine

structure Choices where
  path : Option (List Char)
  json : Option (List Char)
  config : Option (List Char)
  /-- Empty unless chosen, and then instead of the configured ones. -/
  extensions : List (List Char)
  /-- Empty unless chosen, and then instead of the configured ones. -/
  exclude : List (List Char)
  listRules : Bool
  verbose : Bool
deriving DecidableEq, Repr

def Choices.none : Choices := ⟨.none, .none, .none, [], [], false, false⟩

inductive Request where
  | help
  | version
  | misused
  | listRules
  | audit (path : List Char) (choices : Choices)
deriving DecidableEq, Repr

end MarkupAudit.CommandLine
