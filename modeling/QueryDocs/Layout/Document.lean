import QueryDocs.Document
import QueryDocs.Layout.Piece

/-! # Printing documents

Each kind of node is laid out as a list of pieces. Bodies in braces take a line for each item, one
level deeper than the line they open on; all other lists stay on one line, with commas between their
items, save declared arguments of which some has a description. -/

namespace QueryDocs.Layout

/-- A line end and the indentation of a level. -/
def newline (style : Style) (level : Nat) : Piece :=
  .blank (String.ofList ('\n' :: style.margin level))

/-- A single space. -/
def space : Piece := .blank " "

/-- Lists of pieces with a comma and a space between them. -/
def commaSeparated (items : List (List Piece)) : List Piece := [Piece.blank ", "].intercalate items

/-- Items between two marks, each on a line of its own one level deeper. -/
def body (style : Style) (level : Nat) (opening close : Token.Kind) (items : List (List Piece)) :
    List Piece :=
  .mark opening :: items.flatMap (newline style (level + 1) :: ·)
    ++ [newline style level, .mark close]

/-- A body in braces behind a space, or nothing at all where there are no items. -/
def optionalBody (style : Style) (level : Nat) (items : List (List Piece)) : List Piece :=
  if items.isEmpty then [] else space :: body style level .leftBrace .rightBrace items

/-! ### Values and types -/

/-- A string value on a line of a given level. -/
def stringValue (style : Style) (level : Nat) (v : StringValue) : Piece :=
  .string (.choose (style.margin level) v.block v.text.toList) v.text

mutual

/-- A value on a line of a given level. -/
def value (style : Style) (level : Nat) : Value → List Piece
  | .variable v => [.mark .dollar, .word v.name.text]
  | .int v => [.int v.text]
  | .float v => [.float v.text]
  | .string v => [stringValue style level v]
  | .boolean v => [.word (if v.value then "true" else "false")]
  | .null _ => [.word "null"]
  | .enum v => [.word v.text]
  | .list ⟨vs, _⟩ =>
    .mark .leftBracket :: commaSeparated (values style level vs) ++ [.mark .rightBracket]
  | .object ⟨fs, _⟩ =>
    .mark .leftBrace :: commaSeparated (objectFields style level fs) ++ [.mark .rightBrace]

/-- Values, each for itself. -/
def values (style : Style) (level : Nat) : List Value → List (List Piece)
  | [] => []
  | v :: vs => value style level v :: values style level vs

/-- Fields of an object, each for itself. -/
def objectFields (style : Style) (level : Nat) : List ObjectField → List (List Piece)
  | [] => []
  | ⟨name, v, _⟩ :: fs =>
    (.word name.text :: .mark .colon :: space :: value style level v)
      :: objectFields style level fs

end

/-- A reference to a type. -/
def typeRef : TypeRef → List Piece
  | .named t => [.word t.name.text]
  | .list ⟨t, _⟩ => .mark .leftBracket :: typeRef t ++ [.mark .rightBracket]
  | .nonNull ⟨t, _⟩ => typeRef t ++ [.mark .bang]

/-- A default value behind an equals sign, or nothing at all. -/
def defaultValue (style : Style) (level : Nat) : Option Value → List Piece
  | some v => space :: .mark .equals :: space :: value style level v
  | none => []

/-! ### Selections -/

/-- An argument. -/
def argument (style : Style) (level : Nat) (a : Argument) : List Piece :=
  .word a.name.text :: .mark .colon :: space :: value style level a.value

/-- Arguments in parentheses, or nothing at all. -/
def arguments (style : Style) (level : Nat) (as : List Argument) : List Piece :=
  if as.isEmpty then []
  else .mark .leftParen :: commaSeparated (as.map (argument style level)) ++ [.mark .rightParen]

/-- Directives, each behind a space. -/
def directives (style : Style) (level : Nat) (ds : List Directive) : List Piece :=
  ds.flatMap fun d =>
    space :: .mark .atSign :: .word d.name.text :: arguments style level d.arguments

/-- A condition on the type behind the word `on`, or nothing at all. -/
def typeCondition : Option NamedType → List Piece
  | some t => [space, .word "on", space, .word t.name.text]
  | none => []

mutual

/-- A selection on a line of a given level. -/
def selection (style : Style) (level : Nat) : Selection → List Piece
  | .field f => field style level f
  | .spread f => .mark .spread :: .word f.name.text :: directives style level f.directives
  | .inline f => inline style level f

/-- A field. -/
def field (style : Style) (level : Nat) : FieldSelection → List Piece
  | ⟨aliasName, name, as, ds, none, _⟩ => fieldHead style level aliasName name as ds
  | ⟨aliasName, name, as, ds, some set, _⟩ =>
    fieldHead style level aliasName name as ds ++ space :: selectionSet style level set

/-- A fragment in place. -/
def inline (style : Style) (level : Nat) : InlineFragment → List Piece
  | ⟨condition, ds, set, _⟩ =>
    .mark .spread :: typeCondition condition ++ directives style level ds
      ++ space :: selectionSet style level set

/-- A selection set that opens on a line of a given level. -/
def selectionSet (style : Style) (level : Nat) : SelectionSet → List Piece
  | ⟨xs, _⟩ => body style level .leftBrace .rightBrace (selections style (level + 1) xs)

/-- Selections, each for itself. -/
def selections (style : Style) (level : Nat) : List Selection → List (List Piece)
  | [] => []
  | x :: xs => selection style level x :: selections style level xs

/-- A field without its selection set. -/
def fieldHead (style : Style) (level : Nat) (aliasName : Option Name) (name : Name)
    (as : List Argument) (ds : List Directive) : List Piece :=
  (match aliasName with
    | some a => [.word a.text, .mark .colon, space]
    | none => [])
    ++ .word name.text :: arguments style level as ++ directives style level ds

end

/-! ### Operations and fragments -/

/-- A declared variable. -/
def variableDefinition (style : Style) (d : VariableDefinition) : List Piece :=
  .mark .dollar :: .word d.declared.name.text :: .mark .colon :: space :: typeRef d.type
    ++ defaultValue style 0 d.default ++ directives style 0 d.directives

/-- The part of an operation before its selection set; a shorthand has none. -/
def operationHead (style : Style) (d : OperationDefinition) : List Piece :=
  if d.isShorthand then []
  else
    .word d.operation.keyword
      :: (match d.name with
        | some name => [space, .word name.text]
        | none => [])
      ++ (if d.variableDefinitions.isEmpty then []
        else
          .mark .leftParen :: commaSeparated (d.variableDefinitions.map (variableDefinition style))
            ++ [.mark .rightParen])
      ++ directives style 0 d.directives ++ [space]

/-- An operation. -/
def operation (style : Style) (d : OperationDefinition) : List Piece :=
  operationHead style d ++ selectionSet style 0 d.selectionSet

/-- A fragment. -/
def fragment (style : Style) (d : FragmentDefinition) : List Piece :=
  .word "fragment" :: space :: .word d.name.text :: typeCondition (some d.typeCondition)
    ++ directives style 0 d.directives ++ space :: selectionSet style 0 d.selectionSet

/-! ### Types and directives -/

/-- A description on a line of its own, or nothing at all. -/
def description (style : Style) (level : Nat) : Option StringValue → List Piece
  | some d => [stringValue style level d, newline style level]
  | none => []

/-- A declared argument or a field of an input type. -/
def inputValue (style : Style) (level : Nat) (d : InputValueDefinition) : List Piece :=
  description style level d.description
    ++ .word d.name.text :: .mark .colon :: space :: typeRef d.type
    ++ defaultValue style level d.default ++ directives style level d.directives

/-- Declared arguments in parentheses, or nothing at all. With a description among them, they take a
line each. -/
def declaredArguments (style : Style) (level : Nat) (ds : List InputValueDefinition) :
    List Piece :=
  if ds.isEmpty then []
  else if ds.any (·.description.isSome) then
    body style level .leftParen .rightParen (ds.map (inputValue style (level + 1)))
  else .mark .leftParen :: commaSeparated (ds.map (inputValue style level)) ++ [.mark .rightParen]

/-- A field of a type. -/
def fieldDefinition (style : Style) (level : Nat) (d : FieldDefinition) : List Piece :=
  description style level d.description
    ++ .word d.name.text :: declaredArguments style level d.arguments
    ++ .mark .colon :: space :: typeRef d.type ++ directives style level d.directives

/-- A member of an enumeration type. -/
def enumValue (style : Style) (level : Nat) (d : EnumValueDefinition) : List Piece :=
  description style level d.description ++ .word d.name.text :: directives style level d.directives

/-- Interfaces behind the word `implements`, or nothing at all. -/
def interfaces (ts : List NamedType) : List Piece :=
  if ts.isEmpty then []
  else space :: .word "implements" :: ts.flatMap fun t => [space, .word t.name.text]

/-- The members of a union behind an equals sign, or nothing at all. -/
def unionMembers : List NamedType → List Piece
  | [] => []
  | t :: ts =>
    space :: .mark .equals :: space :: .word t.name.text
      :: ts.flatMap fun t => [space, .mark .pipe, space, .word t.name.text]

/-- A type with fields, behind the word it starts with. -/
def composite (style : Style) (word : String) (d : CompositeDefinition) : List Piece :=
  description style 0 d.description ++ .word word :: space :: .word d.name.text
    :: interfaces d.interfaces ++ directives style 0 d.directives
    ++ optionalBody style 0 (d.fields.map (fieldDefinition style 1))

/-- The definition of a type. -/
def typeDefinition (style : Style) : TypeDefinition → List Piece
  | .scalar d =>
    description style 0 d.description ++ .word "scalar" :: space :: .word d.name.text
      :: directives style 0 d.directives
  | .object d => composite style "type" d
  | .interface d => composite style "interface" d
  | .union d =>
    description style 0 d.description ++ .word "union" :: space :: .word d.name.text
      :: directives style 0 d.directives ++ unionMembers d.members
  | .enum d =>
    description style 0 d.description ++ .word "enum" :: space :: .word d.name.text
      :: directives style 0 d.directives ++ optionalBody style 0 (d.values.map (enumValue style 1))
  | .input d =>
    description style 0 d.description ++ .word "input" :: space :: .word d.name.text
      :: directives style 0 d.directives ++ optionalBody style 0 (d.fields.map (inputValue style 1))

/-- A root type of a schema. -/
def rootOperationType (d : RootOperationType) : List Piece :=
  [.word d.keyword.text, .mark .colon, space, .word d.type.name.text]

/-- A schema. -/
def schema (style : Style) (d : SchemaDefinition) : List Piece :=
  description style 0 d.description ++ .word "schema" :: directives style 0 d.directives
    ++ space :: body style 0 .leftBrace .rightBrace (d.operationTypes.map rootOperationType)

/-- The definition of a directive. -/
def directiveDefinition (style : Style) (d : DirectiveDefinition) : List Piece :=
  description style 0 d.description
    ++ .word "directive" :: space :: .mark .atSign :: .word d.name.text
    :: declaredArguments style 0 d.arguments
    ++ (if d.repeatable then [space, .word "repeatable"] else [])
    ++ space :: .word "on" :: space
    :: [space, Piece.mark .pipe, space].intercalate (d.locations.map fun l => [.word l.keyword])

/-! ### Documents -/

/-- A definition. -/
def definition (style : Style) : Definition → List Piece
  | .operation d => operation style d
  | .fragment d => fragment style d
  | .schema d => schema style d
  | .type d => typeDefinition style d
  | .directive d => directiveDefinition style d
  | .extension d => .word "extend" :: space :: typeDefinition style d.definition

/-- A document: its definitions with an empty line between them, and a line end behind the last. -/
def document (style : Style) (d : Document) : List Piece :=
  if d.definitions.isEmpty then []
  else
    [Piece.blank "\n\n"].intercalate (d.definitions.map (definition style)) ++ [.blank "\n"]

end QueryDocs.Layout

/-- The text of a document in a given style. -/
def QueryDocs.Document.print (d : QueryDocs.Document) (style : QueryDocs.Layout.Style := {}) :
    String :=
  QueryDocs.Layout.text (QueryDocs.Layout.document style d)
