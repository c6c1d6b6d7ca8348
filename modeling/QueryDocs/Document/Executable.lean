import QueryDocs.Document.Selection

/-! # Operations and fragments -/

namespace QueryDocs

/-- What an operation does. -/
inductive OperationType where
  | query
  | mutation
  | subscription
deriving DecidableEq, Repr

namespace OperationType

/-- The word an operation of this type starts with. -/
def keyword : OperationType → String
  | .query => "query"
  | .mutation => "mutation"
  | .subscription => "subscription"

/-- The type of the operations that start with a word. -/
def ofKeyword? (word : String) : Option OperationType :=
  [query, mutation, subscription].find? (·.keyword == word)

instance : ToString OperationType := ⟨keyword⟩

theorem ofKeyword?_eq_some {word : String} {t : OperationType} :
    ofKeyword? word = some t ↔ t.keyword = word := by
  constructor
  · intro h; simpa using List.find?_some h
  · rintro rfl; cases t <;> decide

end OperationType

/-- A variable that an operation declares. -/
structure VariableDefinition where
  /-- The variable. -/
  declared : Variable
  /-- Its type. -/
  type : TypeRef
  /-- Its value where none is given. -/
  default : Option Value
  /-- The directives in order. -/
  directives : List Directive
  /-- The bytes it was read from. -/
  span : Span
deriving DecidableEq

/-- An operation. -/
structure OperationDefinition where
  /-- What the operation does. -/
  operation : OperationType
  /-- Its name, if it has one. -/
  name : Option Name
  /-- The variables it declares, in order. -/
  variableDefinitions : List VariableDefinition
  /-- The directives in order. -/
  directives : List Directive
  /-- What it selects. -/
  selectionSet : SelectionSet
  /-- The bytes it was read from. -/
  span : Span
deriving DecidableEq

/-- A fragment that can be used by its name. -/
structure FragmentDefinition where
  /-- Its name. -/
  name : Name
  /-- The type it applies to. -/
  typeCondition : NamedType
  /-- The directives in order. -/
  directives : List Directive
  /-- What it selects. -/
  selectionSet : SelectionSet
  /-- The bytes it was read from. -/
  span : Span
deriving DecidableEq

/-- The name of an operation, if it has one. -/
def OperationDefinition.title? (op : OperationDefinition) : Option String := op.name.map (·.text)

/-- Whether an operation can be written as its selection set alone. -/
def OperationDefinition.isShorthand (op : OperationDefinition) : Bool :=
  op.operation == .query && op.name.isNone && op.variableDefinitions.isEmpty
    && op.directives.isEmpty

end QueryDocs
