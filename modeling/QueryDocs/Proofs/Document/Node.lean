import Mathlib.Logic.Relation
import QueryDocs.Proofs.Document.Lexemes

/-! # Documents as trees

Every part of a document with a span of its own is a `Node`. The children of a node are the nodes
right inside it, in the order in which they are written. -/

namespace QueryDocs

/-- A part of a document that has a span. -/
inductive Node where
  | document (d : Document)
  | definition (d : Definition)
  | variableDefinition (d : VariableDefinition)
  | selectionSet (x : SelectionSet)
  | selection (x : Selection)
  | rootOperationType (d : RootOperationType)
  | fieldDefinition (d : FieldDefinition)
  | inputValue (d : InputValueDefinition)
  | enumValue (d : EnumValueDefinition)
  | directive (d : Directive)
  | argument (a : Argument)
  | typeRef (t : TypeRef)
  | value (v : Value)
  | objectField (f : ObjectField)
  | name (n : Name)

namespace Node

/-- The bytes a node was read from. -/
def span : Node → Span
  | document d => d.span
  | definition d => d.span
  | variableDefinition d => d.span
  | selectionSet x => x.span
  | selection x => x.span
  | rootOperationType d => d.span
  | fieldDefinition d => d.span
  | inputValue d => d.span
  | enumValue d => d.span
  | directive d => d.span
  | argument a => a.span
  | typeRef t => t.span
  | value v => v.span
  | objectField f => f.span
  | name n => n.span

/-! ### Children -/

/-- A type that is referred to by its name. -/
abbrev named (t : NamedType) : Node := typeRef (.named t)

/-- A description as a node, if there is one. -/
def ofDescription (v : Option StringValue) : List Node := v.toList.map fun v => value (.string v)

/-- A default value as a node, if there is one. -/
def ofDefault (v : Option Value) : List Node := v.toList.map value

/-- The nodes right inside the definition of a type. -/
def ofType : TypeDefinition → List Node
  | .scalar d => ofDescription d.description ++ name d.name :: d.directives.map directive
  | .object d | .interface d =>
    ofDescription d.description ++ name d.name :: d.interfaces.map named
      ++ d.directives.map directive ++ d.fields.map fieldDefinition
  | .union d =>
    ofDescription d.description ++ name d.name :: d.directives.map directive ++ d.members.map named
  | .enum d =>
    ofDescription d.description ++ name d.name :: d.directives.map directive
      ++ d.values.map enumValue
  | .input d =>
    ofDescription d.description ++ name d.name :: d.directives.map directive
      ++ d.fields.map inputValue

/-- The nodes right inside a definition. What is added to a type is a definition in turn. -/
def ofDefinition : Definition → List Node
  | .operation d =>
    d.name.toList.map name ++ d.variableDefinitions.map variableDefinition
      ++ d.directives.map directive ++ [selectionSet d.selectionSet]
  | .fragment d =>
    name d.name :: named d.typeCondition :: d.directives.map directive
      ++ [selectionSet d.selectionSet]
  | .schema d =>
    ofDescription d.description ++ d.directives.map directive
      ++ d.operationTypes.map rootOperationType
  | .type d => ofType d
  | .directive d => ofDescription d.description ++ name d.name :: d.arguments.map inputValue
  | .extension d => [definition (.type d.definition)]

/-- The nodes right inside a selection; an alias stands before the name. -/
def ofSelection : Selection → List Node
  | .field f =>
    f.aliasName.toList.map name ++ name f.name :: f.arguments.map argument
      ++ f.directives.map directive ++ f.selectionSet.toList.map selectionSet
  | .spread f => name f.name :: f.directives.map directive
  | .inline f =>
    f.typeCondition.toList.map named ++ f.directives.map directive ++ [selectionSet f.selectionSet]

/-- The nodes right inside a value. -/
def ofValue : Value → List Node
  | .variable v => [name v.name]
  | .list v => v.values.map value
  | .object v => v.fields.map objectField
  | _ => []

/-- **The nodes right inside a node**, in the order in which they are written. -/
def children : Node → List Node
  | document d => d.definitions.map definition
  | definition d => ofDefinition d
  | variableDefinition d =>
    value (.variable d.declared) :: typeRef d.type :: ofDefault d.default
      ++ d.directives.map directive
  | selectionSet x => x.selections.map selection
  | selection x => ofSelection x
  | rootOperationType d => [name d.keyword, named d.type]
  | fieldDefinition d =>
    ofDescription d.description ++ name d.name :: d.arguments.map inputValue
      ++ typeRef d.type :: d.directives.map directive
  | inputValue d =>
    ofDescription d.description ++ name d.name :: typeRef d.type :: ofDefault d.default
      ++ d.directives.map directive
  | enumValue d => ofDescription d.description ++ name d.name :: d.directives.map directive
  | directive d => name d.name :: d.arguments.map argument
  | argument a => [name a.name, value a.value]
  | typeRef (.named t) => [name t.name]
  | typeRef (.list t) => [typeRef t.item]
  | typeRef (.nonNull t) => [typeRef t.nullable]
  | value v => ofValue v
  | objectField f => [name f.name, value f.value]
  | name _ => []

/-- A node is a node itself, or inside it. -/
def Holds (n m : Node) : Prop := Relation.ReflTransGen (fun n m => m ∈ n.children) n m

/-! ### Leaves -/

/-- The token that a node without children consists of. -/
def lexeme? : Node → Option Lexeme
  | name n => some (Lexeme.word n.text)
  | value (.int v) => some (.int, some v.text)
  | value (.float v) => some (.float, some v.text)
  | value (.string v) => some v.lexeme
  | value (.boolean v) => some (Lexeme.word (if v.value then "true" else "false"))
  | value (.null _) => some (Lexeme.word "null")
  | value (.enum v) => some (Lexeme.word v.text)
  | _ => none

/-- The text of a node that is written as its text: a name, a number, a truth value, null or a member
of an enumeration. -/
def text? : Node → Option String
  | name n => some n.text
  | value (.int v) => some v.text
  | value (.float v) => some v.text
  | value (.boolean v) => some (if v.value then "true" else "false")
  | value (.null _) => some "null"
  | value (.enum v) => some v.text
  | _ => none

end Node

end QueryDocs
