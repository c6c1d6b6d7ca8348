import QueryDocs.Document.Executable
import QueryDocs.Grammar.Value

/-! # The grammar of operations and fragments -/

namespace QueryDocs.Rule

/-! ### Arguments and directives -/

/-- A name, a colon and a value. -/
def argument (limit : Nat) (isConst : Bool) : Rule Argument := do
  let start ← start
  let name ← name
  expect .colon
  let value ← value isConst limit
  return ⟨name, value, ← spanFrom start⟩

/-- Arguments in parentheses, or nothing at all. -/
def arguments (limit : Nat) (isConst : Bool) : Rule (List Argument) :=
  optionalBetween limit .leftParen (argument limit isConst) .rightParen

/-- An at sign, a name and arguments. -/
def directive (limit : Nat) (isConst : Bool) : Rule Directive := do
  let start ← start
  expect .atSign
  let name ← name
  let arguments ← arguments limit isConst
  return ⟨name, arguments, ← spanFrom start⟩

/-- Directives one after the other. -/
def directives (limit : Nat) (isConst : Bool) : Rule (List Directive) :=
  repeatWhile (·.kind == .atSign) (directive limit isConst) limit

/-! ### Selections -/

/-- Whether a token opens a selection set. -/
def opensSet (t : Token) : Bool := t.kind == .leftBrace

/-- A field with all that belongs to it. -/
def field (limit : Nat) (set : Rule SelectionSet) : Rule FieldSelection := do
  let start ← start
  let first ← name
  let (aliasName, name) ←
    if ← accept .colon then do pure (some first, ← name) else pure (none, first)
  let arguments ← arguments limit false
  let directives ← directives limit false
  let selectionSet ← optional opensSet set
  return ⟨aliasName, name, arguments, directives, selectionSet, ← spanFrom start⟩

/-- A fragment behind three dots: one used by its name, or one in place. -/
def fragmentSelection (limit : Nat) (set : Rule SelectionSet) : Rule Selection := do
  let start ← start
  expect .spread
  let t := (← get).current
  if t.kind == .name && !t.isWord "on" then
    let name ← name
    let directives ← directives limit false
    return .spread ⟨name, directives, ← spanFrom start⟩
  else
    let typeCondition ← optional (·.isWord "on") (do advance; namedType)
    let directives ← directives limit false
    let selectionSet ← set
    return .inline ⟨typeCondition, directives, selectionSet, ← spanFrom start⟩

/-- One selection. -/
def selection (limit : Nat) (set : Rule SelectionSet) : Rule Selection := do
  if ← atKind .spread then fragmentSelection limit set else return .field (← field limit set)

/-- Selections in braces. -/
def selectionSet : Nat → Rule SelectionSet
  | 0 => fail (.kind .leftBrace)
  | limit + 1 => do
    let start ← start
    let selections ←
      between limit .leftBrace (selection limit (selectionSet limit)) .rightBrace
    return ⟨selections, ← spanFrom start⟩

/-! ### Definitions -/

/-- A variable, a colon, its type, its default value and its directives. -/
def variableDefinition (limit : Nat) : Rule VariableDefinition := do
  let start ← start
  let declared ← variableUse
  expect .colon
  let type ← typeRef limit
  let default ← defaultValue limit
  let directives ← directives limit true
  return ⟨declared, type, default, directives, ← spanFrom start⟩

/-- The word an operation starts with. -/
def operationType : Rule OperationType := keyword OperationType.ofKeyword? .operationType

/-- An operation, or a selection set alone, which is a query. -/
def operation (limit : Nat) : Rule OperationDefinition := do
  let start ← start
  if ← atKind .leftBrace then
    let selectionSet ← selectionSet limit
    return ⟨.query, none, [], [], selectionSet, ← spanFrom start⟩
  else
    let operation ← operationType
    let title ← optional (·.kind == .name) name
    let declared ← optionalBetween limit .leftParen (variableDefinition limit) .rightParen
    let directives ← directives limit false
    let selectionSet ← selectionSet limit
    return ⟨operation, title, declared, directives, selectionSet, ← spanFrom start⟩

/-- A fragment that can be used by its name. -/
def fragment (limit : Nat) : Rule FragmentDefinition := do
  let start ← start
  expectWord "fragment"
  if ← atWord "on" then fail .fragmentName
  else
    let name ← name
    expectWord "on"
    let typeCondition ← namedType
    let directives ← directives limit false
    let selectionSet ← selectionSet limit
    return ⟨name, typeCondition, directives, selectionSet, ← spanFrom start⟩

end QueryDocs.Rule
