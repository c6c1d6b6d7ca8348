import QueryDocs.Document.Executable

/-! # Definitions of types and directives -/

namespace QueryDocs

/-- An argument of a field or a directive, or a field of an input type. -/
structure InputValueDefinition where
  /-- The description before it. -/
  description : Option StringValue
  /-- Its name. -/
  name : Name
  /-- Its type. -/
  type : TypeRef
  /-- Its value where none is given. -/
  default : Option Value
  /-- The directives in order. -/
  directives : List Directive
  /-- The bytes it was read from. -/
  span : Span
deriving DecidableEq

/-- A field of a type. -/
structure FieldDefinition where
  /-- The description before it. -/
  description : Option StringValue
  /-- Its name. -/
  name : Name
  /-- The arguments it takes, in order. -/
  arguments : List InputValueDefinition
  /-- The type of its value. -/
  type : TypeRef
  /-- The directives in order. -/
  directives : List Directive
  /-- The bytes it was read from. -/
  span : Span
deriving DecidableEq

/-- A type of leaves. -/
structure ScalarDefinition where
  /-- The description before it. -/
  description : Option StringValue
  /-- Its name. -/
  name : Name
  /-- The directives in order. -/
  directives : List Directive
  /-- The bytes it was read from. -/
  span : Span
deriving DecidableEq

/-- A type with fields: an object type or an interface. -/
structure CompositeDefinition where
  /-- The description before it. -/
  description : Option StringValue
  /-- Its name. -/
  name : Name
  /-- The interfaces it implements, in order. -/
  interfaces : List NamedType
  /-- The directives in order. -/
  directives : List Directive
  /-- The fields in order; there are none where the body is left out. -/
  fields : List FieldDefinition
  /-- The bytes it was read from. -/
  span : Span
deriving DecidableEq

/-- A choice between types. -/
structure UnionDefinition where
  /-- The description before it. -/
  description : Option StringValue
  /-- Its name. -/
  name : Name
  /-- The directives in order. -/
  directives : List Directive
  /-- The types to choose from, in order. -/
  members : List NamedType
  /-- The bytes it was read from. -/
  span : Span
deriving DecidableEq

/-- A member of an enumeration type. -/
structure EnumValueDefinition where
  /-- The description before it. -/
  description : Option StringValue
  /-- Its name. -/
  name : Name
  /-- The directives in order. -/
  directives : List Directive
  /-- The bytes it was read from. -/
  span : Span
deriving DecidableEq

/-- An enumeration type. -/
structure EnumDefinition where
  /-- The description before it. -/
  description : Option StringValue
  /-- Its name. -/
  name : Name
  /-- The directives in order. -/
  directives : List Directive
  /-- The members in order; there are none where the body is left out. -/
  values : List EnumValueDefinition
  /-- The bytes it was read from. -/
  span : Span
deriving DecidableEq

/-- A type of objects given as values. -/
structure InputDefinition where
  /-- The description before it. -/
  description : Option StringValue
  /-- Its name. -/
  name : Name
  /-- The directives in order. -/
  directives : List Directive
  /-- The fields in order; there are none where the body is left out. -/
  fields : List InputValueDefinition
  /-- The bytes it was read from. -/
  span : Span
deriving DecidableEq

/-- A definition of a type. -/
inductive TypeDefinition where
  | scalar (d : ScalarDefinition)
  | object (d : CompositeDefinition)
  | interface (d : CompositeDefinition)
  | union (d : UnionDefinition)
  | enum (d : EnumDefinition)
  | input (d : InputDefinition)
deriving DecidableEq

namespace TypeDefinition

/-- The name of the type. -/
def name : TypeDefinition → Name
  | .scalar d => d.name
  | .object d => d.name
  | .interface d => d.name
  | .union d => d.name
  | .enum d => d.name
  | .input d => d.name

/-- The bytes the definition was read from. -/
def span : TypeDefinition → Span
  | .scalar d => d.span
  | .object d => d.span
  | .interface d => d.span
  | .union d => d.span
  | .enum d => d.span
  | .input d => d.span

/-- The description before the definition. -/
def description : TypeDefinition → Option StringValue
  | .scalar d => d.description
  | .object d => d.description
  | .interface d => d.description
  | .union d => d.description
  | .enum d => d.description
  | .input d => d.description

/-- Whether the definition could go on with a body in braces that it does not have. -/
def lacksBody : TypeDefinition → Bool
  | .object d => d.fields.isEmpty
  | .interface d => d.fields.isEmpty
  | .enum d => d.values.isEmpty
  | .input d => d.fields.isEmpty
  | _ => false

end TypeDefinition

/-- An addition to a type that is defined elsewhere. -/
structure TypeExtension where
  /-- What is added, in the form of a definition. -/
  definition : TypeDefinition
  /-- The bytes it was read from. -/
  span : Span
deriving DecidableEq

/-- The type from which the operations of one kind start. -/
structure RootOperationType where
  /-- The kind of operation, if the word names one. -/
  operation : Option OperationType
  /-- The word before the colon. -/
  keyword : Name
  /-- The type. -/
  type : NamedType
  /-- The bytes it was read from. -/
  span : Span
deriving DecidableEq

/-- The definition of a schema. -/
structure SchemaDefinition where
  /-- The description before it. -/
  description : Option StringValue
  /-- The directives in order. -/
  directives : List Directive
  /-- The root types in order. -/
  operationTypes : List RootOperationType
  /-- The bytes it was read from. -/
  span : Span
deriving DecidableEq

/-- A place where a directive can stand. -/
inductive DirectiveLocation where
  | query
  | mutation
  | subscription
  | field
  | fragmentDefinition
  | fragmentSpread
  | inlineFragment
  | variableDefinition
  | schema
  | scalar
  | object
  | fieldDefinition
  | argumentDefinition
  | interface
  | union
  | enum
  | enumValue
  | inputObject
  | inputFieldDefinition
deriving DecidableEq, Repr

namespace DirectiveLocation

/-- All places. -/
def all : List DirectiveLocation :=
  [query, mutation, subscription, field, fragmentDefinition, fragmentSpread, inlineFragment,
   variableDefinition, schema, scalar, object, fieldDefinition, argumentDefinition, interface,
   union, enum, enumValue, inputObject, inputFieldDefinition]

/-- The word for a place. -/
def keyword : DirectiveLocation → String
  | .query => "QUERY"
  | .mutation => "MUTATION"
  | .subscription => "SUBSCRIPTION"
  | .field => "FIELD"
  | .fragmentDefinition => "FRAGMENT_DEFINITION"
  | .fragmentSpread => "FRAGMENT_SPREAD"
  | .inlineFragment => "INLINE_FRAGMENT"
  | .variableDefinition => "VARIABLE_DEFINITION"
  | .schema => "SCHEMA"
  | .scalar => "SCALAR"
  | .object => "OBJECT"
  | .fieldDefinition => "FIELD_DEFINITION"
  | .argumentDefinition => "ARGUMENT_DEFINITION"
  | .interface => "INTERFACE"
  | .union => "UNION"
  | .enum => "ENUM"
  | .enumValue => "ENUM_VALUE"
  | .inputObject => "INPUT_OBJECT"
  | .inputFieldDefinition => "INPUT_FIELD_DEFINITION"

/-- The place that a word stands for. -/
def ofKeyword? (word : String) : Option DirectiveLocation := all.find? (·.keyword == word)

theorem ofKeyword?_eq_some {word : String} {l : DirectiveLocation} :
    ofKeyword? word = some l ↔ l.keyword = word := by
  constructor
  · intro h; simpa using List.find?_some h
  · rintro rfl; cases l <;> decide

end DirectiveLocation

/-- A definition of a directive. -/
structure DirectiveDefinition where
  /-- The description before it. -/
  description : Option StringValue
  /-- Its name. -/
  name : Name
  /-- The arguments it takes, in order. -/
  arguments : List InputValueDefinition
  /-- Whether it can be used more than once in one place. -/
  repeatable : Bool
  /-- The places where it can stand, in order. -/
  locations : List DirectiveLocation
  /-- The bytes it was read from. -/
  span : Span
deriving DecidableEq

end QueryDocs
