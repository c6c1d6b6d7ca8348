/-! # JSON values

A number is kept as an integer when it is written as one and fits 64 bits, with or without a sign,
and as a floating-point number otherwise. The members of an object are kept in the order of their
names, each name once. -/

namespace QueryDocs

/-- A JSON value. -/
inductive Json where
  | null
  | bool (b : Bool)
  | int (n : Int)
  | float (x : Float)
  | string (s : String)
  | array (items : List Json)
  | object (members : List (String × Json))

/-- Puts a member at its place in the order of names; it replaces a member of the same name. -/
def Json.insertMember (name : String) (value : Json) : List (String × Json) → List (String × Json)
  | [] => [(name, value)]
  | (n, v) :: rest =>
    if name < n then (name, value) :: (n, v) :: rest
    else if name = n then (name, value) :: rest
    else (n, v) :: Json.insertMember name value rest

namespace Json

/-- An object with the given members; of two members of one name the last one counts. -/
def ofMembers (members : List (String × Json)) : Json :=
  .object (members.foldl (fun acc m => insertMember m.1 m.2 acc) [])

/-- The member of a given name, if the value is an object with one. -/
def member? (name : String) : Json → Option Json
  | .object members => members.lookup name
  | _ => none

end Json

end QueryDocs
