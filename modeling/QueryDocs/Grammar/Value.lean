import QueryDocs.Document.TypeRef
import QueryDocs.Document.Value
import QueryDocs.Grammar.Cursor

/-! # The grammar of values and references to types -/

namespace QueryDocs.Rule

/-- A dollar sign and a name. -/
def variableUse : Rule Variable := do
  let start ← start
  expect .dollar
  let name ← name
  return ⟨name, ← spanFrom start⟩

/-- Takes the current token, a string of either form, as a string value. -/
def stringValue : Rule StringValue := do
  let t := (← get).current
  advance
  return ⟨t.text, t.kind == .blockString, t.span⟩

/-- Whether a token is a string of either form. -/
def isString (t : Token) : Bool := t.kind == .string || t.kind == .blockString

/-- The value that a name stands for: a truth value, null or a member of an enumeration. -/
def ofWord (text : String) (span : Span) : Value :=
  if text = "true" then .boolean ⟨true, span⟩
  else if text = "false" then .boolean ⟨false, span⟩
  else if text = "null" then .null ⟨span⟩
  else .enum ⟨text, span⟩

/-- A name, a colon and a value in an object. -/
def objectField (value : Rule Value) : Rule ObjectField := do
  let start ← start
  let name ← name
  expect .colon
  let value ← value
  return ⟨name, value, ← spanFrom start⟩

/-- A value; a constant one holds no variables. -/
def value (isConst : Bool) : Nat → Rule Value
  | 0 => fail (if isConst then .constantValue else .value)
  | limit + 1 => do
    let t := (← get).current
    match t.kind with
    | .leftBracket =>
      advance
      let values ← upTo .rightBracket (value isConst limit) limit
      return .list ⟨values, ← spanFrom t.span.start⟩
    | .leftBrace =>
      advance
      let fields ← upTo .rightBrace (objectField (value isConst limit)) limit
      return .object ⟨fields, ← spanFrom t.span.start⟩
    | .dollar => if isConst then fail .constantValue else return .variable (← variableUse)
    | .string | .blockString => return .string (← stringValue)
    | .int =>
      advance
      return .int ⟨t.text, t.span⟩
    | .float =>
      advance
      return .float ⟨t.text, t.span⟩
    | .name =>
      advance
      return ofWord t.text t.span
    | _ => fail (if isConst then .constantValue else .value)

/-- A type referred to by its name. -/
def namedType : Rule NamedType := do
  let name ← name
  return ⟨name, name.span⟩

/-- A reference to a type. -/
def typeRef : Nat → Rule TypeRef
  | 0 => fail (.kind .name)
  | limit + 1 => do
    let start ← start
    let core ←
      if ← accept .leftBracket then do
        let item ← typeRef limit
        expect .rightBracket
        pure (TypeRef.list ⟨item, ← spanFrom start⟩)
      else do pure (TypeRef.named (← namedType))
    if ← accept .bang then return .nonNull ⟨core, ← spanFrom start⟩ else return core

/-- An equals sign and a constant value, or nothing at all. -/
def defaultValue (limit : Nat) : Rule (Option Value) := do
  if ← accept .equals then return some (← value true limit) else return none

end QueryDocs.Rule
