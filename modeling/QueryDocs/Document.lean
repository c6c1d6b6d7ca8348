import QueryDocs.Document.TypeSystem

/-! # Documents

A document is a sequence of definitions: operations and fragments, which can be executed, and
definitions of schemas, types and directives, which cannot. -/

namespace QueryDocs

/-- A definition in a document. -/
inductive Definition where
  | operation (d : OperationDefinition)
  | fragment (d : FragmentDefinition)
  | schema (d : SchemaDefinition)
  | type (d : TypeDefinition)
  | directive (d : DirectiveDefinition)
  | extension (d : TypeExtension)
deriving DecidableEq

namespace Definition

/-- The bytes a definition was read from. -/
def span : Definition → Span
  | .operation d => d.span
  | .fragment d => d.span
  | .schema d => d.span
  | .type d => d.span
  | .directive d => d.span
  | .extension d => d.span

/-- Whether a definition can be executed. -/
def isExecutable : Definition → Bool
  | .operation _ | .fragment _ => true
  | _ => false

/-- The operation that a definition is, if it is one. -/
def operation? : Definition → Option OperationDefinition
  | .operation d => some d
  | _ => none

/-- The fragment that a definition is, if it is one. -/
def fragment? : Definition → Option FragmentDefinition
  | .fragment d => some d
  | _ => none

/-- The type that a definition defines or extends, if it does. -/
def typeDefinition? : Definition → Option TypeDefinition
  | .type d => some d
  | .extension d => some d.definition
  | _ => none

end Definition

/-- A document. -/
structure Document where
  /-- The definitions in order. -/
  definitions : List Definition
  /-- The bytes it was read from. -/
  span : Span
deriving DecidableEq

namespace Document

/-- The operations of a document, in order. -/
def operations (d : Document) : List OperationDefinition :=
  d.definitions.filterMap Definition.operation?

/-- The fragments of a document, in order. -/
def fragments (d : Document) : List FragmentDefinition :=
  d.definitions.filterMap Definition.fragment?

end Document

end QueryDocs
