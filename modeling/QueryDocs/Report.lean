import QueryDocs.Span

/-! # Reports

A report tells what is wrong and where, for people to read. -/

namespace QueryDocs

/-- What is said about an error. -/
structure Report where
  /-- A name for errors of this kind. -/
  code : Option String := none
  /-- What is wrong. -/
  message : String
  /-- Places in the source, with a remark on each. -/
  labels : List (Span × String) := []
  /-- What could be done about it. -/
  help : Option String := none
deriving DecidableEq, Repr

namespace Report

/-- A line for a place, with the name of the source it lies in. -/
def labelLine (sourceName : Option String) (label : Span × String) : String :=
  let place := match sourceName with
    | some name => " in " ++ name
    | none => ""
  "  label " ++ toString label.1.start ++ "+" ++ toString label.1.length ++ " " ++ label.2 ++ place
    ++ "\n"

/-- The text of a report: its message, a line for each place, and a line of help. -/
def render (r : Report) (sourceName : Option String) : String :=
  let code := match r.code with
    | some code => "[" ++ code ++ "]"
    | none => ""
  let help := match r.help with
    | some help => "  help " ++ help ++ "\n"
    | none => ""
  "report" ++ code ++ ": " ++ r.message ++ "\n"
    ++ String.join (r.labels.map (labelLine sourceName)) ++ help

end Report

end QueryDocs
