import QueryDocs.Json.Number

/-! # Writing JSON

Values are written without any blanks, or with each item and member on a line of its own, two spaces
deeper than what it lies in. In a string the double quote, the backslash and control characters are
escaped, and nothing else. -/

namespace QueryDocs.Json

/-- A number as four lower-case hexadecimal digits. -/
def hex4 (n : Nat) : List Char :=
  let ds := Nat.toDigits 16 n
  List.replicate (4 - ds.length) '0' ++ ds

/-- A character as it is written inside a string. -/
def escapeChar (c : Char) : List Char :=
  match c with
  | '"' => ['\\', '"']
  | '\\' => ['\\', '\\']
  | '\x08' => ['\\', 'b']
  | '\x0c' => ['\\', 'f']
  | '\n' => ['\\', 'n']
  | '\r' => ['\\', 'r']
  | '\t' => ['\\', 't']
  | c => if c.toNat < 0x20 then '\\' :: 'u' :: hex4 c.toNat else [c]

/-- A string in double quotes. -/
def quote (s : String) : String :=
  s.foldl (fun out c => (escapeChar c).foldl String.push out) "\"" ++ "\""

mutual

/-- Writes a value without blanks, behind the text so far. -/
def writeTo (out : String) : Json → String
  | .null => out ++ "null"
  | .bool b => out ++ (if b then "true" else "false")
  | .int n => out ++ toString n
  | .float x => out ++ Number.render x
  | .string s => out ++ quote s
  | .array items => writeItems (out ++ "[") true items ++ "]"
  | .object members => writeMembers (out ++ "\x7b") true members ++ "\x7d"

/-- Writes the items of an array, separated by commas. -/
def writeItems (out : String) (first : Bool) : List Json → String
  | [] => out
  | v :: vs => writeItems (v.writeTo (if first then out else out ++ ",")) false vs

/-- Writes the members of an object, separated by commas. -/
def writeMembers (out : String) (first : Bool) : List (String × Json) → String
  | [] => out
  | (name, v) :: rest =>
    let lead := if first then out else out ++ ","
    writeMembers (v.writeTo (lead ++ quote name ++ ":")) false rest

end

/-- The text of a value, without blanks. -/
def compact (v : Json) : String := v.writeTo ""

/-! ### One item a line -/

/-- A line end and the indentation of a level. -/
def lineStart (level : Nat) : String := String.ofList ('\n' :: List.replicate (2 * level) ' ')

mutual

/-- The text of a value on a line of a given level. -/
def prettyAt (level : Nat) : Json → String
  | .array [] => "[]"
  | .array items =>
    "[" ++ ",".intercalate (prettyItems (level + 1) items) ++ lineStart level ++ "]"
  | .object [] => "\x7b\x7d"
  | .object members =>
    "\x7b" ++ ",".intercalate (prettyMembers (level + 1) members) ++ lineStart level ++ "\x7d"
  | v => v.compact

/-- The items of an array, each with the line start before it. -/
def prettyItems (level : Nat) : List Json → List String
  | [] => []
  | v :: vs => (lineStart level ++ v.prettyAt level) :: prettyItems level vs

/-- The members of an object, each with the line start before it. -/
def prettyMembers (level : Nat) : List (String × Json) → List String
  | [] => []
  | (name, v) :: rest =>
    (lineStart level ++ quote name ++ ": " ++ v.prettyAt level) :: prettyMembers level rest

end

/-- The text of a value with each item and member on a line of its own. -/
def pretty (v : Json) : String := v.prettyAt 0

end QueryDocs.Json
