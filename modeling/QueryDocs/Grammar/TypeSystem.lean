import QueryDocs.Document.TypeSystem
import QueryDocs.Grammar.Executable

/-! # The grammar of definitions of types and directives

A description stands before the definition it belongs to and counts as a part of it. All values are
constant here. -/

namespace QueryDocs.Rule

/-! ### Descriptions -/

/-- A string of either form, or nothing at all. -/
def description : Rule (Option StringValue) := optional isString stringValue

/-- The start of a definition: that of its description, or else that of the current token. -/
def startOf (description : Option StringValue) : Rule Nat := do
  match description with
  | some d => return d.span.start
  | none => start

/-! ### Fields and arguments -/

/-- An argument of a field or a directive, or a field of an input type. -/
def inputValue (limit : Nat) : Rule InputValueDefinition := do
  let description ← description
  let start ← startOf description
  let name ← name
  expect .colon
  let type ← typeRef limit
  let default ← defaultValue limit
  let directives ← directives limit true
  return ⟨description, name, type, default, directives, ← spanFrom start⟩

/-- Declared arguments in parentheses, or nothing at all. -/
def declaredArguments (limit : Nat) : Rule (List InputValueDefinition) :=
  optionalBetween limit .leftParen (inputValue limit) .rightParen

/-- A field of a type. -/
def fieldDefinition (limit : Nat) : Rule FieldDefinition := do
  let description ← description
  let start ← startOf description
  let name ← name
  let arguments ← declaredArguments limit
  expect .colon
  let type ← typeRef limit
  let directives ← directives limit true
  return ⟨description, name, arguments, type, directives, ← spanFrom start⟩

/-- A member of an enumeration type. It is not named like another value, however the token that
names it is written. -/
def enumValue (limit : Nat) : Rule EnumValueDefinition := do
  let description ← description
  let start ← startOf description
  if ← atToken (fun t => ["true", "false", "null"].contains t.text) then fail .enumValueName
  else
    let name ← name
    let directives ← directives limit true
    return ⟨description, name, directives, ← spanFrom start⟩

/-! ### Types -/

/-- The words that definitions start with. A list of interfaces ends before any of them. -/
def definitionWords : List String :=
  ["query", "mutation", "subscription", "fragment", "schema", "scalar", "type", "interface",
   "union", "enum", "input", "directive", "extend"]

/-- Whether a token continues a list of interfaces. -/
def continuesInterfaces (t : Token) : Bool := t.kind == .name && !definitionWords.contains t.text

/-- The word `implements` and the names of interfaces, or nothing at all. -/
def interfaces (limit : Nat) : Rule (List NamedType) := do
  if ← atWord "implements" then
    advance
    let first ← namedType
    let more ← repeatWhile continuesInterfaces namedType limit
    return first :: more
  else return []

/-- An equals sign and types with bars between them, or nothing at all. A bar may stand before the
first type. -/
def unionMembers (limit : Nat) : Rule (List NamedType) := do
  if ← accept .equals then
    let _ ← accept .pipe
    separated limit .pipe namedType
  else return []

/-- A type of leaves. -/
def scalar (limit start : Nat) (description : Option StringValue) : Rule ScalarDefinition := do
  advance
  let name ← name
  let directives ← directives limit true
  return ⟨description, name, directives, ← spanFrom start⟩

/-- An object type or an interface. -/
def composite (limit start : Nat) (description : Option StringValue) :
    Rule CompositeDefinition := do
  advance
  let name ← name
  let interfaces ← interfaces limit
  let directives ← directives limit true
  let fields ← optionalBetween limit .leftBrace (fieldDefinition limit) .rightBrace
  return ⟨description, name, interfaces, directives, fields, ← spanFrom start⟩

/-- A type that is made of a name, directives and members, given how its members are read. -/
def membered {α β : Type} (make : Option StringValue → Name → List Directive → α → Span → β)
    (members : Rule α) (limit start : Nat) (description : Option StringValue) : Rule β := do
  advance
  let name ← name
  let directives ← directives limit true
  let members ← members
  return make description name directives members (← spanFrom start)

/-- A choice between types. -/
def union (limit : Nat) : Nat → Option StringValue → Rule UnionDefinition :=
  membered .mk (unionMembers limit) limit

/-- An enumeration type. -/
def enum (limit : Nat) : Nat → Option StringValue → Rule EnumDefinition :=
  membered .mk (optionalBetween limit .leftBrace (enumValue limit) .rightBrace) limit

/-- A type of objects given as values. -/
def input (limit : Nat) : Nat → Option StringValue → Rule InputDefinition :=
  membered .mk (optionalBetween limit .leftBrace (inputValue limit) .rightBrace) limit

/-- The definition of a type, chosen by the word at the current token. -/
def typeDefinition (limit start : Nat) (description : Option StringValue) :
    Rule TypeDefinition := do
  let t := (← get).current
  if t.isWord "scalar" then return .scalar (← scalar limit start description)
  else if t.isWord "type" then return .object (← composite limit start description)
  else if t.isWord "interface" then return .interface (← composite limit start description)
  else if t.isWord "union" then return .union (← union limit start description)
  else if t.isWord "enum" then return .enum (← enum limit start description)
  else if t.isWord "input" then return .input (← input limit start description)
  else fail .definition

/-- An addition to a type, which has no description. -/
def extension (limit : Nat) : Rule TypeExtension := do
  let outer ← start
  expectWord "extend"
  let inner ← start
  let definition ← typeDefinition limit inner none
  return ⟨definition, ← spanFrom outer⟩

/-! ### Schemas and directives -/

/-- A word for a kind of operation, a colon and a type. Other words are taken as well. -/
def rootOperationType : Rule RootOperationType := do
  let start ← start
  let keyword ← name
  expect .colon
  let type ← namedType
  return ⟨OperationType.ofKeyword? keyword.text, keyword, type, ← spanFrom start⟩

/-- A schema. -/
def schema (limit start : Nat) (description : Option StringValue) : Rule SchemaDefinition := do
  advance
  let directives ← directives limit true
  let operationTypes ← between limit .leftBrace rootOperationType .rightBrace
  return ⟨description, directives, operationTypes, ← spanFrom start⟩

/-- A place where a directive can stand. -/
def directiveLocation : Rule DirectiveLocation :=
  keyword DirectiveLocation.ofKeyword? .directiveLocation

/-- The definition of a directive. -/
def directiveDefinition (limit start : Nat) (description : Option StringValue) :
    Rule DirectiveDefinition := do
  advance
  expect .atSign
  let name ← name
  let arguments ← declaredArguments limit
  let repeatable ← atWord "repeatable"
  if repeatable then advance
  expectWord "on"
  let _ ← accept .pipe
  let locations ← separated limit .pipe directiveLocation
  return ⟨description, name, arguments, repeatable, locations, ← spanFrom start⟩

end QueryDocs.Rule
