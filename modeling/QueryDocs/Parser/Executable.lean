import QueryDocs.Grammar.Executable
import QueryDocs.Parser.Basic

/-! # Parsing values, references to types, operations and fragments -/

namespace QueryDocs.Parser

open Rule (isString ofWord opensSet)

/-! ### Values -/

/-- A dollar sign and a name. -/
def variableUse : Action Variable := do
  let start ← start
  expect .dollar
  let name ← name
  return ⟨name, ← spanFrom start⟩

/-- A string of either form. -/
def stringValue : Action StringValue := do
  let t := (← get).current
  if isString t then
    advance
    return ⟨t.text, t.kind == .blockString, t.span⟩
  else fail (.kind .string)

mutual

/-- A value; a constant one holds no variables. -/
def value (isConst : Bool) : Action Value := do
  let t := (← get).current
  match t.kind with
  | .leftBracket =>
    advance
    let values ← (· |>.values isConst)
    return .list ⟨values, ← spanFrom t.span.start⟩
  | .leftBrace =>
    advance
    let fields ← (· |>.objectFields isConst)
    return .object ⟨fields, ← spanFrom t.span.start⟩
  | .dollar => if isConst then fail .constantValue else return .variable (← variableUse)
  | .string | .blockString => return .string (← stringValue)
  | .int =>
    advance
    return .int ⟨t.text, t.span⟩
  | .float =>
    advance
    return .float ⟨t.text, t.span⟩
  | .name =>
    advance
    return ofWord t.text t.span
  | _ => fail (if isConst then .constantValue else .value)
partial_fixpoint

/-- The values of a list up to its closing bracket. -/
def values (isConst : Bool) : Action (List Value) := do
  if ← accept .rightBracket then return []
  else
    let x ← (· |>.value isConst)
    let xs ← (· |>.values isConst)
    return x :: xs
partial_fixpoint

/-- A name, a colon and a value in an object. -/
def objectField (isConst : Bool) : Action ObjectField := do
  let start ← start
  let name ← name
  expect .colon
  let value ← (· |>.value isConst)
  return ⟨name, value, ← spanFrom start⟩
partial_fixpoint

/-- The fields of an object up to its closing brace. -/
def objectFields (isConst : Bool) : Action (List ObjectField) := do
  if ← accept .rightBrace then return []
  else
    let x ← (· |>.objectField isConst)
    let xs ← (· |>.objectFields isConst)
    return x :: xs
partial_fixpoint

end

/-! ### References to types -/

/-- A type referred to by its name. -/
def namedType : Action NamedType := do
  let name ← name
  return ⟨name, name.span⟩

/-- A reference to a type. -/
def typeRef : Action TypeRef := do
  let start ← start
  let core ←
    if ← accept .leftBracket then do
      let item ← (· |>.typeRef)
      expect .rightBracket
      pure (TypeRef.list ⟨item, ← spanFrom start⟩)
    else do pure (TypeRef.named (← namedType))
  if ← accept .bang then return .nonNull ⟨core, ← spanFrom start⟩ else return core
partial_fixpoint

/-- An equals sign and a constant value, or nothing at all. -/
def defaultValue : Action (Option Value) := do
  if ← accept .equals then return some (← value true) else return none

/-! ### Arguments and directives -/

/-- A name, a colon and a value. -/
def argument (isConst : Bool) : Action Argument := do
  let start ← start
  let name ← name
  expect .colon
  let value ← value isConst
  return ⟨name, value, ← spanFrom start⟩

/-- Arguments in parentheses, or nothing at all. -/
def arguments (isConst : Bool) : Action (List Argument) :=
  optionalMany .leftParen (argument isConst) .rightParen

/-- An at sign, a name and arguments. -/
def directive (isConst : Bool) : Action Directive := do
  let start ← start
  expect .atSign
  let name ← name
  let arguments ← arguments isConst
  return ⟨name, arguments, ← spanFrom start⟩

/-- Directives one after the other. -/
def directives (isConst : Bool) : Action (List Directive) :=
  loop (roundWhile (·.kind == .atSign) (directive isConst))

/-! ### Selections -/

mutual

/-- Selections in braces. -/
def selectionSet : Action SelectionSet := do
  let start ← start
  expect .leftBrace
  let first ← (· |>.selection)
  let more ← (· |>.selections)
  return ⟨first :: more, ← spanFrom start⟩
partial_fixpoint

/-- The selections of a set up to its closing brace, without the first one. -/
def selections : Action (List Selection) := do
  if ← accept .rightBrace then return []
  else
    let x ← (· |>.selection)
    let xs ← (· |>.selections)
    return x :: xs
partial_fixpoint

/-- One selection. -/
def selection : Action Selection := do
  if ← atKind .spread then (· |>.fragmentSelection) else return .field (← (· |>.field))
partial_fixpoint

/-- A fragment behind three dots: one used by its name, or one in place. -/
def fragmentSelection : Action Selection := do
  let start ← start
  expect .spread
  let t := (← get).current
  if t.kind == .name && !t.isWord "on" then
    let name ← name
    let directives ← directives false
    return .spread ⟨name, directives, ← spanFrom start⟩
  else
    let typeCondition ← optional (·.isWord "on") (do advance; namedType)
    let directives ← directives false
    let selectionSet ← (· |>.selectionSet)
    return .inline ⟨typeCondition, directives, selectionSet, ← spanFrom start⟩
partial_fixpoint

/-- A field with all that belongs to it. -/
def field : Action FieldSelection := do
  let start ← start
  let first ← name
  let (aliasName, name) ←
    if ← accept .colon then do pure (some first, ← name) else pure (none, first)
  let arguments ← arguments false
  let directives ← directives false
  let selectionSet ←
    if ← atToken opensSet then do pure (some (← (· |>.selectionSet))) else pure none
  return ⟨aliasName, name, arguments, directives, selectionSet, ← spanFrom start⟩
partial_fixpoint

end

/-! ### Definitions -/

/-- A variable, a colon, its type, its default value and its directives. -/
def variableDefinition : Action VariableDefinition := do
  let start ← start
  let declared ← variableUse
  expect .colon
  let type ← typeRef
  let default ← defaultValue
  let directives ← directives true
  return ⟨declared, type, default, directives, ← spanFrom start⟩

/-- The word an operation starts with. -/
def operationType : Action OperationType := keyword OperationType.ofKeyword? .operationType

/-- An operation, or a selection set alone, which is a query. -/
def operation : Action OperationDefinition := do
  let start ← start
  if ← atKind .leftBrace then
    let selectionSet ← selectionSet
    return ⟨.query, none, [], [], selectionSet, ← spanFrom start⟩
  else
    let operation ← operationType
    let title ← optional (·.kind == .name) name
    let declared ← optionalMany .leftParen variableDefinition .rightParen
    let directives ← directives false
    let selectionSet ← selectionSet
    return ⟨operation, title, declared, directives, selectionSet, ← spanFrom start⟩

/-- A fragment that can be used by its name. -/
def fragment : Action FragmentDefinition := do
  let start ← start
  expectWord "fragment"
  if ← atWord "on" then fail .fragmentName
  else
    let name ← name
    expectWord "on"
    let typeCondition ← namedType
    let directives ← directives false
    let selectionSet ← selectionSet
    return ⟨name, typeCondition, directives, selectionSet, ← spanFrom start⟩

end QueryDocs.Parser
