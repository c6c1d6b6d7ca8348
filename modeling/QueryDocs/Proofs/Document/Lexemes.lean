import QueryDocs.Proofs.Document.Relabel
import QueryDocs.Proofs.Tokens.Scan

/-! # The tokens of a document

`lexemes` tells the tokens that a node is written with, by their classes and values. It is fixed by
the node but for three places of the grammar where a token may be left out: the word `query` before
a selection set alone, and a bar before the members of a union or before the places of a directive.
There, `full` says whether the token is written. -/

namespace QueryDocs

namespace Lexeme

/-- A mark of punctuation. -/
abbrev mark (k : Token.Kind) : Lexeme := (k, none)

/-- A name or a keyword. -/
abbrev word (w : String) : Lexeme := (.name, some w)

/-- Items between two marks, or nothing at all. -/
def enclosed {α : Type} (opening close : Token.Kind) (f : α → List Lexeme) :
    List α → List Lexeme
  | [] => []
  | x :: xs => mark opening :: (x :: xs).flatMap f ++ [mark close]

/-- Items with bars between them. -/
def barred {α : Type} (f : α → List Lexeme) : List α → List Lexeme
  | [] => []
  | x :: xs => f x ++ xs.flatMap fun x => mark .pipe :: f x

/-- What belongs to an option, or nothing at all. -/
def ofOption {α : Type} (f : α → List Lexeme) : Option α → List Lexeme
  | some x => f x
  | none => []

@[simp] theorem enclosed_nil {α : Type} (opening close : Token.Kind) (f : α → List Lexeme) :
    enclosed opening close f [] = [] := rfl

@[simp] theorem ofOption_none {α : Type} (f : α → List Lexeme) : ofOption f none = [] := rfl

@[simp] theorem ofOption_some {α : Type} (f : α → List Lexeme) (x : α) :
    ofOption f (some x) = f x := rfl

end Lexeme

open Lexeme

/-! ### Values and types -/

/-- The token of a string. -/
def StringValue.lexeme (v : StringValue) : Lexeme :=
  (if v.block then .blockString else .string, some v.text)

mutual

/-- The tokens of a value. -/
def Value.lexemes : Value → List Lexeme
  | .variable v => [mark .dollar, word v.name.text]
  | .int v => [(.int, some v.text)]
  | .float v => [(.float, some v.text)]
  | .string v => [v.lexeme]
  | .boolean v => [word (if v.value then "true" else "false")]
  | .null _ => [word "null"]
  | .enum v => [word v.text]
  | .list ⟨vs, _⟩ => mark .leftBracket :: Value.allLexemes vs ++ [mark .rightBracket]
  | .object ⟨fs, _⟩ => mark .leftBrace :: ObjectField.allLexemes fs ++ [mark .rightBrace]

/-- The tokens of values, one after the other. -/
def Value.allLexemes : List Value → List Lexeme
  | [] => []
  | v :: vs => v.lexemes ++ Value.allLexemes vs

/-- The tokens of the fields of an object, one after the other. -/
def ObjectField.allLexemes : List ObjectField → List Lexeme
  | [] => []
  | ⟨n, v, _⟩ :: fs => word n.text :: mark .colon :: v.lexemes ++ ObjectField.allLexemes fs

end

/-- The tokens of a field of an object. -/
def ObjectField.lexemes (f : ObjectField) : List Lexeme :=
  word f.name.text :: mark .colon :: f.value.lexemes

/-- The token of the name of a type. -/
def NamedType.lexemes (t : NamedType) : List Lexeme := [word t.name.text]

/-- The tokens of a reference to a type. -/
def TypeRef.lexemes : TypeRef → List Lexeme
  | .named t => t.lexemes
  | .list ⟨t, _⟩ => mark .leftBracket :: t.lexemes ++ [mark .rightBracket]
  | .nonNull ⟨t, _⟩ => t.lexemes ++ [mark .bang]

/-- The tokens of a default value. -/
def defaultLexemes : Option Value → List Lexeme := ofOption fun v => mark .equals :: v.lexemes

/-! ### Selections -/

/-- The tokens of an argument. -/
def Argument.lexemes (a : Argument) : List Lexeme :=
  word a.name.text :: mark .colon :: a.value.lexemes

/-- The tokens of arguments with their parentheses. -/
def argumentLexemes : List Argument → List Lexeme := enclosed .leftParen .rightParen Argument.lexemes

/-- The tokens of a directive. -/
def Directive.lexemes (d : Directive) : List Lexeme :=
  mark .atSign :: word d.name.text :: argumentLexemes d.arguments

/-- The tokens of directives, one after the other. -/
def directiveLexemes (ds : List Directive) : List Lexeme := ds.flatMap Directive.lexemes

/-- The tokens of a condition on the type. -/
def conditionLexemes : Option NamedType → List Lexeme := ofOption fun t => word "on" :: t.lexemes

mutual

/-- The tokens of a selection. -/
def Selection.lexemes : Selection → List Lexeme
  | .field f => f.lexemes
  | .spread f => mark .spread :: word f.name.text :: directiveLexemes f.directives
  | .inline f => f.lexemes

/-- The tokens of a field. -/
def FieldSelection.lexemes : FieldSelection → List Lexeme
  | ⟨a, n, as, ds, none, _⟩ => headLexemes a n as ds
  | ⟨a, n, as, ds, some x, _⟩ => headLexemes a n as ds ++ x.lexemes

/-- The tokens of a fragment in place. -/
def InlineFragment.lexemes : InlineFragment → List Lexeme
  | ⟨c, ds, x, _⟩ => mark .spread :: conditionLexemes c ++ directiveLexemes ds ++ x.lexemes

/-- The tokens of a selection set. -/
def SelectionSet.lexemes : SelectionSet → List Lexeme
  | ⟨xs, _⟩ => mark .leftBrace :: Selection.allLexemes xs ++ [mark .rightBrace]

/-- The tokens of selections, one after the other. -/
def Selection.allLexemes : List Selection → List Lexeme
  | [] => []
  | x :: xs => x.lexemes ++ Selection.allLexemes xs

/-- The tokens of a field without its selection set. -/
def headLexemes (aliasName : Option Name) (name : Name) (as : List Argument)
    (ds : List Directive) : List Lexeme :=
  ofOption (fun a => [word a.text, mark .colon]) aliasName
    ++ word name.text :: argumentLexemes as ++ directiveLexemes ds

end

/-! ### Operations and fragments -/

/-- The tokens of a declared variable. -/
def VariableDefinition.lexemes (d : VariableDefinition) : List Lexeme :=
  mark .dollar :: word d.declared.name.text :: mark .colon :: d.type.lexemes
    ++ defaultLexemes d.default ++ directiveLexemes d.directives

/-- The tokens of an operation. -/
def OperationDefinition.lexemes (full : Bool) (d : OperationDefinition) : List Lexeme :=
  if d.isShorthand then (if full then [word "query"] else []) ++ d.selectionSet.lexemes
  else
    word d.operation.keyword :: ofOption (fun n => [word n.text]) d.name
      ++ enclosed .leftParen .rightParen VariableDefinition.lexemes d.variableDefinitions
      ++ directiveLexemes d.directives ++ d.selectionSet.lexemes

/-- The tokens of a fragment. -/
def FragmentDefinition.lexemes (d : FragmentDefinition) : List Lexeme :=
  word "fragment" :: word d.name.text :: word "on" :: d.typeCondition.lexemes
    ++ directiveLexemes d.directives ++ d.selectionSet.lexemes

/-! ### Types and directives -/

/-- The token of a description. -/
def descriptionLexemes : Option StringValue → List Lexeme := ofOption fun d => [d.lexeme]

/-- The tokens of a declared argument or a field of an input type. -/
def InputValueDefinition.lexemes (d : InputValueDefinition) : List Lexeme :=
  descriptionLexemes d.description ++ word d.name.text :: mark .colon :: d.type.lexemes
    ++ defaultLexemes d.default ++ directiveLexemes d.directives

/-- The tokens of declared arguments with their parentheses. -/
def declaredLexemes : List InputValueDefinition → List Lexeme :=
  enclosed .leftParen .rightParen InputValueDefinition.lexemes

/-- The tokens of a field of a type. -/
def FieldDefinition.lexemes (d : FieldDefinition) : List Lexeme :=
  descriptionLexemes d.description ++ word d.name.text :: declaredLexemes d.arguments
    ++ mark .colon :: d.type.lexemes ++ directiveLexemes d.directives

/-- The tokens of a member of an enumeration type. -/
def EnumValueDefinition.lexemes (d : EnumValueDefinition) : List Lexeme :=
  descriptionLexemes d.description ++ word d.name.text :: directiveLexemes d.directives

/-- The tokens of interfaces. -/
def interfaceLexemes : List NamedType → List Lexeme
  | [] => []
  | t :: ts => word "implements" :: (t :: ts).flatMap NamedType.lexemes

/-- The bar before the first of several items. -/
def leadingBar (full : Bool) : List Lexeme := if full then [mark .pipe] else []

/-- The tokens of the members of a union. -/
def memberLexemes (full : Bool) : List NamedType → List Lexeme
  | [] => []
  | t :: ts => mark .equals :: leadingBar full ++ barred NamedType.lexemes (t :: ts)

/-- The tokens of a body in braces. -/
def bodyLexemes {α : Type} : (α → List Lexeme) → List α → List Lexeme :=
  enclosed .leftBrace .rightBrace

/-- The tokens at the start of the definition of a type. -/
def typeLexemes (description : Option StringValue) (keyword : String) (name : Name) :
    List Lexeme :=
  descriptionLexemes description ++ [word keyword, word name.text]

/-- The tokens of a type with fields, for the word it starts with. -/
def CompositeDefinition.lexemes (keyword : String) (d : CompositeDefinition) : List Lexeme :=
  typeLexemes d.description keyword d.name ++ interfaceLexemes d.interfaces
    ++ directiveLexemes d.directives ++ bodyLexemes FieldDefinition.lexemes d.fields

/-- The tokens of the definition of a type. -/
def TypeDefinition.lexemes (full : Bool) : TypeDefinition → List Lexeme
  | .scalar d => typeLexemes d.description "scalar" d.name ++ directiveLexemes d.directives
  | .object d => d.lexemes "type"
  | .interface d => d.lexemes "interface"
  | .union d =>
    typeLexemes d.description "union" d.name ++ directiveLexemes d.directives
      ++ memberLexemes full d.members
  | .enum d =>
    typeLexemes d.description "enum" d.name ++ directiveLexemes d.directives
      ++ bodyLexemes EnumValueDefinition.lexemes d.values
  | .input d =>
    typeLexemes d.description "input" d.name ++ directiveLexemes d.directives
      ++ bodyLexemes InputValueDefinition.lexemes d.fields

/-- The tokens of a root type of a schema. -/
def RootOperationType.lexemes (d : RootOperationType) : List Lexeme :=
  word d.keyword.text :: mark .colon :: d.type.lexemes

/-- The tokens of a schema. -/
def SchemaDefinition.lexemes (d : SchemaDefinition) : List Lexeme :=
  descriptionLexemes d.description ++ word "schema" :: directiveLexemes d.directives
    ++ mark .leftBrace :: d.operationTypes.flatMap RootOperationType.lexemes ++ [mark .rightBrace]

/-- The tokens of the definition of a directive. -/
def DirectiveDefinition.lexemes (full : Bool) (d : DirectiveDefinition) : List Lexeme :=
  descriptionLexemes d.description ++ word "directive" :: mark .atSign :: word d.name.text
    :: declaredLexemes d.arguments ++ (if d.repeatable then [word "repeatable"] else [])
    ++ word "on" :: leadingBar full ++ barred (fun l => [word l.keyword]) d.locations

/-! ### Documents -/

/-- The tokens of a definition. -/
def Definition.lexemes (full : Bool) : Definition → List Lexeme
  | .operation d => d.lexemes full
  | .fragment d => d.lexemes
  | .schema d => d.lexemes
  | .type d => d.lexemes full
  | .directive d => d.lexemes full
  | .extension d => word "extend" :: d.definition.lexemes full

/-- The tokens of a document with no token that may be left out. -/
def Document.lexemes (d : Document) : List Lexeme := d.definitions.flatMap (Definition.lexemes false)

/-- With all its tokens, an operation starts with its word. -/
theorem OperationDefinition.lexemes_true (d : OperationDefinition) :
    d.lexemes true = word d.operation.keyword :: ofOption (fun n => [word n.text]) d.name
      ++ enclosed .leftParen .rightParen VariableDefinition.lexemes d.variableDefinitions
      ++ directiveLexemes d.directives ++ d.selectionSet.lexemes := by
  by_cases h : d.isShorthand = true
  · rw [lexemes, if_pos h, if_pos rfl]
    simp only [isShorthand, Bool.and_eq_true, beq_iff_eq, List.isEmpty_iff,
      Option.isNone_iff_eq_none] at h
    obtain ⟨⟨⟨h1, h2⟩, h3⟩, h4⟩ := h
    rw [h1, h2, h3, h4]
    rfl
  · rw [lexemes, if_neg h]

/-- An operation that need not start with its word starts with the brace of its selection set. -/
theorem OperationDefinition.lexemes_of_isShorthand {d : OperationDefinition}
    (h : d.isShorthand = true) : d.lexemes false = d.selectionSet.lexemes := by
  rw [lexemes, if_pos h]
  rfl

theorem OperationDefinition.lexemes_eq_true {full : Bool} {d : OperationDefinition}
    (h : (d.isShorthand && !full) = false) : d.lexemes full = d.lexemes true := by
  cases full with
  | true => rfl
  | false =>
    have hd : ¬ d.isShorthand = true := by simpa using h
    rw [lexemes, lexemes, if_neg hd, if_neg hd]

/-! ### Lists -/

@[simp] theorem defaultLexemes_none : defaultLexemes none = [] := rfl

@[simp] theorem argumentLexemes_nil : argumentLexemes [] = [] := rfl

@[simp] theorem directiveLexemes_nil : directiveLexemes [] = [] := rfl

@[simp] theorem declaredLexemes_nil : declaredLexemes [] = [] := rfl

@[simp] theorem descriptionLexemes_none : descriptionLexemes none = [] := rfl

@[simp] theorem interfaceLexemes_nil : interfaceLexemes [] = [] := rfl

@[simp] theorem memberLexemes_nil (full : Bool) : memberLexemes full [] = [] := rfl

@[simp] theorem bodyLexemes_nil {α : Type} (f : α → List Lexeme) : bodyLexemes f [] = [] := rfl

theorem Value.allLexemes_eq (vs : List Value) :
    Value.allLexemes vs = vs.flatMap Value.lexemes := by
  induction vs with
  | nil => rfl
  | cons v vs ih => rw [Value.allLexemes, ih, List.flatMap_cons]

theorem ObjectField.allLexemes_eq (fs : List ObjectField) :
    ObjectField.allLexemes fs = fs.flatMap ObjectField.lexemes := by
  induction fs with
  | nil => rfl
  | cons f fs ih => cases f; rw [ObjectField.allLexemes, ih, List.flatMap_cons]; rfl

theorem Selection.allLexemes_eq (xs : List Selection) :
    Selection.allLexemes xs = xs.flatMap Selection.lexemes := by
  induction xs with
  | nil => rfl
  | cons x xs ih => rw [Selection.allLexemes, ih, List.flatMap_cons]

@[simp] theorem Value.lexemes_list (vs : List Value) (s : Span) :
    (Value.list ⟨vs, s⟩).lexemes =
      mark .leftBracket :: vs.flatMap Value.lexemes ++ [mark .rightBracket] := by
  rw [Value.lexemes, Value.allLexemes_eq]

@[simp] theorem Value.lexemes_object (fs : List ObjectField) (s : Span) :
    (Value.object ⟨fs, s⟩).lexemes =
      mark .leftBrace :: fs.flatMap ObjectField.lexemes ++ [mark .rightBrace] := by
  rw [Value.lexemes, ObjectField.allLexemes_eq]

@[simp] theorem SelectionSet.lexemes_mk (xs : List Selection) (s : Span) :
    (⟨xs, s⟩ : SelectionSet).lexemes =
      mark .leftBrace :: xs.flatMap Selection.lexemes ++ [mark .rightBrace] := by
  rw [SelectionSet.lexemes, Selection.allLexemes_eq]

@[simp] theorem FieldSelection.lexemes_mk (a : Option Name) (n : Name) (as : List Argument)
    (ds : List Directive) (x : Option SelectionSet) (s : Span) :
    (⟨a, n, as, ds, x, s⟩ : FieldSelection).lexemes =
      ofOption (fun a => [word a.text, mark .colon]) a ++ word n.text :: argumentLexemes as
        ++ directiveLexemes ds ++ ofOption SelectionSet.lexemes x := by
  cases x <;> simp [FieldSelection.lexemes, headLexemes, ofOption]

/-! ### Labels -/

/-- A token with its labels changed: a block string may be in double quotes instead. -/
def Lexeme.withLabels (m : Relabeling) : Lexeme → Lexeme
  | (.blockString, some v) => (if m.block v then .blockString else .string, some v)
  | l => l

instance : Labeled Lexeme := ⟨Lexeme.withLabels⟩

@[simp] theorem relabel_mark (m : Relabeling) (k : Token.Kind) :
    relabel m (Lexeme.mark k) = Lexeme.mark k := by cases k <;> rfl

@[simp] theorem relabel_word (m : Relabeling) (w : String) :
    relabel m (Lexeme.word w) = Lexeme.word w := rfl

theorem Lexeme.Valid.relabel {l : Lexeme} (h : l.Valid) (m : Relabeling) :
    (relabel m l).Valid := by
  obtain ⟨k, v⟩ := l
  rcases v with _ | v
  · cases k <;> exact h
  · cases k with
    | blockString =>
      change Lexeme.Valid (if m.block v then .blockString else .string, some v)
      split_ifs
      · exact h
      · trivial
    | _ => exact h

end QueryDocs
