import QueryDocs.Document

/-! # Nodes of a walk

A walk visits the nodes of operations and fragments one by one. A `NodeKind` says which kind of node
is visited, and `NodeKind.Node` is the type of these nodes. -/

namespace QueryDocs

/-- The kinds of nodes that a walk visits. -/
inductive NodeKind where
  | document
  | operation
  | fragment
  | variableDefinition
  | variable
  | selectionSet
  | field
  | spread
  | inline
  | argument
  | directive
  | name
  | int
  | float
  | string
  | boolean
  | null
  | enum
  | list
  | object
  | objectField
  | namedType
  | listType
  | nonNullType
deriving DecidableEq, Repr

namespace NodeKind

/-- The nodes of a kind. -/
abbrev Node : NodeKind → Type
  | document => Document
  | operation => OperationDefinition
  | fragment => FragmentDefinition
  | variableDefinition => VariableDefinition
  | «variable» => Variable
  | selectionSet => SelectionSet
  | field => FieldSelection
  | spread => FragmentSpread
  | inline => InlineFragment
  | argument => Argument
  | directive => Directive
  | name => Name
  | int => IntValue
  | float => FloatValue
  | string => StringValue
  | boolean => BooleanValue
  | null => NullValue
  | enum => EnumValue
  | list => ListValue
  | object => ObjectValue
  | objectField => ObjectField
  | namedType => NamedType
  | listType => ListType
  | nonNullType => NonNullType

/-- Whether nodes of a kind consist of a text or a value and have no nodes inside. -/
def isLeaf : NodeKind → Bool
  | name | int | float | string | boolean | null | enum => true
  | _ => false

/-- The bytes a node was read from. -/
def span : (k : NodeKind) → k.Node → Span
  | document, n => n.span
  | operation, n => n.span
  | fragment, n => n.span
  | variableDefinition, n => n.span
  | «variable», n => n.span
  | selectionSet, n => n.span
  | field, n => n.span
  | spread, n => n.span
  | inline, n => n.span
  | argument, n => n.span
  | directive, n => n.span
  | name, n => n.span
  | int, n => n.span
  | float, n => n.span
  | string, n => n.span
  | boolean, n => n.span
  | null, n => n.span
  | enum, n => n.span
  | list, n => n.span
  | object, n => n.span
  | objectField, n => n.span
  | namedType, n => n.span
  | listType, n => n.span
  | nonNullType, n => n.span

end NodeKind

end QueryDocs
