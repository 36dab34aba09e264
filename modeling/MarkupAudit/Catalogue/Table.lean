import MarkupAudit.Catalogue

/-!
The catalogue as a table: a heading, then a line for each rule.
-/

namespace MarkupAudit.Catalogue

def cell (width : Nat) (text : String) : String :=
  text ++ String.ofList (List.replicate (width - text.length) ' ')

def row (name severity criterion problem : String) : String :=
  cell 25 name ++ " " ++ cell 9 severity ++ " " ++ cell 6 criterion ++ " " ++ problem ++ "\n"

def table (rules : List Rule) : String :=
  row "RULE" "SEVERITY" "WCAG" "TYPE" ++
    String.join (rules.map fun rule =>
      row rule.name rule.severity.label rule.criterion rule.problem)

end MarkupAudit.Catalogue
