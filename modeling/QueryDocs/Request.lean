import QueryDocs.Json.Reader
import QueryDocs.Json.Writer

/-! # Requests

A request asks a server to run an operation: it holds the text of a document, the name of the
operation in it, and the values of its variables. Requests are written and read as JSON. -/

namespace QueryDocs

/-- A request to run an operation. -/
structure Request where
  /-- The text of the document. -/
  query : String
  /-- The name of the operation. -/
  operationName : Option String := none
  /-- The values of the variables. -/
  values : Option Json := none

namespace Request

/-- The members of a request as a JSON object, in the order in which they are written; what is
absent is left out. -/
def members (r : Request) : List (String × Json) :=
  ("query", .string r.query)
    :: (r.operationName.map fun name => ("operationName", Json.string name)).toList
    ++ (r.values.map fun v => ("variables", v)).toList

/-- The text of a request. -/
def render (r : Request) : String := (Json.object r.members).compact

/-! ### Reading -/

/-- A text that may be left out. -/
def optionalText? : Option Json → Option (Option String)
  | none | some .null => some none
  | some (.string s) => some (some s)
  | some _ => none

/-- A value that may be left out. -/
def optionalValue : Option Json → Option Json
  | none | some .null => none
  | some v => some v

/-- A request from the values of its parts, as far as they are given. -/
def ofParts? (query name values : Option Json) : Option Request := do
  let .string query ← query | none
  return ⟨query, ← optionalText? name, optionalValue values⟩

/-- The names of the members. -/
def memberNames : List String := ["query", "operationName", "variables"]

/-- Reads the value of a member of a given name; the value of an unknown member does not count. -/
def memberValue (name : String) (cs : List Char) : Option (Json × List Char) :=
  if name ∈ memberNames then Json.value .strict (Json.maxDepth - 1) cs
  else Json.value .loose cs.length cs

/-- A request from the members of an object, none of which may be given twice. -/
def ofMembers? (ms : List (String × Json)) : Option Request :=
  if memberNames.any fun name => 1 < ms.countP (·.1 == name) then none
  else ofParts? (ms.lookup "query") (ms.lookup "operationName") (ms.lookup "variables")

/-- A request from the items of an array. -/
def ofItems? (items : List Json) : Option Request :=
  if 3 < items.length then none else ofParts? items[0]? items[1]? items[2]?

/-- Reads a request, as an object or as an array of its parts in order. -/
def value? (cs : List Char) : Option (Request × List Char) :=
  match Json.skipBlanks cs with
  | '\x7b' :: cs => do
    let (ms, rest) ← Json.members .strict memberValue cs.length cs
    return (← ofMembers? ms, rest)
  | '[' :: cs => do
    let (items, rest) ← Json.items (Json.value .strict (Json.maxDepth - 1)) cs.length cs
    return (← ofItems? items, rest)
  | _ => none

/-- The request that a whole text denotes. -/
def parse? (text : String) : Option Request := do
  let (r, rest) ← value? text.toList
  if (Json.skipBlanks rest).isEmpty then some r else none

end Request

end QueryDocs
