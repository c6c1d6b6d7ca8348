import QueryDocs.Grammar.TypeSystem
import QueryDocs.Parser.Executable

/-! # Parsing definitions of types and directives

Each rule for a definition checks the word that the definition starts with, although it is chosen by this
word. -/

namespace QueryDocs.Parser

open Rule (isString continuesInterfaces)

/-! ### Descriptions -/

/-- A string of either form, or nothing at all. -/
def description : Action (Option StringValue) := optional isString stringValue

/-- The start of a definition: that of its description, or else that of the current token. -/
def startOf (description : Option StringValue) : Action Nat := do
  match description with
  | some d => return d.span.start
  | none => start

/-! ### Fields and arguments -/

/-- An argument of a field or a directive, or a field of an input type. -/
def inputValue : Action InputValueDefinition := do
  let description ← description
  let start ← startOf description
  let name ← name
  expect .colon
  let type ← typeRef
  let default ← defaultValue
  let directives ← directives true
  return ⟨description, name, type, default, directives, ← spanFrom start⟩

/-- Declared arguments in parentheses, or nothing at all. -/
def declaredArguments : Action (List InputValueDefinition) :=
  optionalMany .leftParen inputValue .rightParen

/-- A field of a type. -/
def fieldDefinition : Action FieldDefinition := do
  let description ← description
  let start ← startOf description
  let name ← name
  let arguments ← declaredArguments
  expect .colon
  let type ← typeRef
  let directives ← directives true
  return ⟨description, name, arguments, type, directives, ← spanFrom start⟩

/-- A member of an enumeration type. It is not named like another value, however the token that
names it is written. -/
def enumValue : Action EnumValueDefinition := do
  let description ← description
  let start ← startOf description
  if ← atToken (fun t => ["true", "false", "null"].contains t.text) then fail .enumValueName
  else
    let name ← name
    let directives ← directives true
    return ⟨description, name, directives, ← spanFrom start⟩

/-! ### Types -/

/-- The word `implements` and the names of interfaces, or nothing at all. -/
def interfaces : Action (List NamedType) := do
  if ← atWord "implements" then
    advance
    let first ← namedType
    let more ← loop (roundWhile continuesInterfaces namedType)
    return first :: more
  else return []

/-- An equals sign and types with bars between them, or nothing at all. A bar may stand before the
first type. -/
def unionMembers : Action (List NamedType) := do
  if ← accept .equals then
    let _ ← accept .pipe
    separated .pipe namedType
  else return []

/-- A type of leaves. -/
def scalar (start : Nat) (description : Option StringValue) : Action ScalarDefinition := do
  expectWord "scalar"
  let name ← name
  let directives ← directives true
  return ⟨description, name, directives, ← spanFrom start⟩

/-- An object type or an interface, told apart by the word. -/
def composite (word : String) (start : Nat) (description : Option StringValue) :
    Action CompositeDefinition := do
  expectWord word
  let name ← name
  let interfaces ← interfaces
  let directives ← directives true
  let fields ← optionalMany .leftBrace fieldDefinition .rightBrace
  return ⟨description, name, interfaces, directives, fields, ← spanFrom start⟩

/-- A type that is made of a name, directives and members, given its word and how its members are
read. -/
def membered {α β : Type} (make : Option StringValue → Name → List Directive → α → Span → β)
    (word : String) (members : Action α) (start : Nat) (description : Option StringValue) :
    Action β := do
  expectWord word
  let name ← name
  let directives ← directives true
  let members ← members
  return make description name directives members (← spanFrom start)

/-- A choice between types. -/
def union : Nat → Option StringValue → Action UnionDefinition := membered .mk "union" unionMembers

/-- An enumeration type. -/
def enum : Nat → Option StringValue → Action EnumDefinition :=
  membered .mk "enum" (optionalMany .leftBrace enumValue .rightBrace)

/-- A type of objects given as values. -/
def input : Nat → Option StringValue → Action InputDefinition :=
  membered .mk "input" (optionalMany .leftBrace inputValue .rightBrace)

/-- The definition of a type, chosen by the word at the current token. -/
def typeDefinition (start : Nat) (description : Option StringValue) : Action TypeDefinition := do
  let t := (← get).current
  if t.kind == .name then
    match t.text with
    | "scalar" => return .scalar (← scalar start description)
    | "type" => return .object (← composite "type" start description)
    | "interface" => return .interface (← composite "interface" start description)
    | "union" => return .union (← union start description)
    | "enum" => return .enum (← enum start description)
    | "input" => return .input (← input start description)
    | _ => fail .definition
  else fail .definition

/-- An addition to a type, which has no description. -/
def extension : Action TypeExtension := do
  let outer ← start
  expectWord "extend"
  let inner ← start
  let definition ← typeDefinition inner none
  return ⟨definition, ← spanFrom outer⟩

/-! ### Schemas and directives -/

/-- A word for a kind of operation, a colon and a type. Other words are taken as well. -/
def rootOperationType : Action RootOperationType := do
  let start ← start
  let keyword ← name
  expect .colon
  let type ← namedType
  return ⟨OperationType.ofKeyword? keyword.text, keyword, type, ← spanFrom start⟩

/-- A schema. -/
def schema (start : Nat) (description : Option StringValue) : Action SchemaDefinition := do
  expectWord "schema"
  let directives ← directives true
  let operationTypes ← many .leftBrace rootOperationType .rightBrace
  return ⟨description, directives, operationTypes, ← spanFrom start⟩

/-- A place where a directive can stand. -/
def directiveLocation : Action DirectiveLocation :=
  keyword DirectiveLocation.ofKeyword? .directiveLocation

/-- The definition of a directive. -/
def directiveDefinition (start : Nat) (description : Option StringValue) :
    Action DirectiveDefinition := do
  expectWord "directive"
  expect .atSign
  let name ← name
  let arguments ← declaredArguments
  let repeatable ← atWord "repeatable"
  if repeatable then advance
  expectWord "on"
  let _ ← accept .pipe
  let locations ← separated .pipe directiveLocation
  return ⟨description, name, arguments, repeatable, locations, ← spanFrom start⟩

end QueryDocs.Parser
