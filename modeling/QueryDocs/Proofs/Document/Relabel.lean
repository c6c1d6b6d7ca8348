import QueryDocs.Document
import QueryDocs.Layout.Piece

/-! # Documents up to their labels

Where a node was read from and in which form a string was written are labels: they say how a
document came about and not what it says. A `Relabeling` changes the labels of a document and
nothing else; two documents are the same up to spans if erasing the spans makes them equal. -/

namespace QueryDocs

/-- A change of labels: of each offset, and of the form of each block string. -/
structure Relabeling where
  /-- The offset to put in the place of an offset. -/
  offset : Nat → Nat
  /-- Whether a block string of a given text stays one. -/
  block : String → Bool

namespace Relabeling

/-- Offsets are changed, and strings keep their forms. -/
def move (φ : Nat → Nat) : Relabeling := ⟨φ, fun _ => true⟩

/-- All offsets are taken away. -/
def erase : Relabeling := move fun _ => 0

/-- All offsets are taken away, and block strings stay as they are where a printed text can have
them. -/
def print : Relabeling :=
  ⟨fun _ => 0, fun text => Layout.fitsOneLine text.toList || Layout.fitsLines text.toList⟩

end Relabeling

/-- Data with labels. -/
class Labeled (α : Type) where
  /-- The same data with its labels changed. -/
  relabel : Relabeling → α → α

export Labeled (relabel)

/-! ### Offsets, and data without labels -/

instance : Labeled Nat := ⟨fun m n => m.offset n⟩

instance : Labeled Unit := ⟨fun _ x => x⟩

instance : Labeled Bool := ⟨fun _ x => x⟩

instance : Labeled OperationType := ⟨fun _ x => x⟩

instance : Labeled DirectiveLocation := ⟨fun _ x => x⟩

instance {α : Type} [Labeled α] : Labeled (Option α) := ⟨fun m x => x.map (relabel m)⟩

instance {α : Type} [Labeled α] : Labeled (List α) := ⟨fun m xs => xs.map (relabel m)⟩

instance {α β : Type} [Labeled α] [Labeled β] : Labeled (α × β) :=
  ⟨fun m x => (relabel m x.1, relabel m x.2)⟩

instance : Labeled Span := ⟨fun m s => ⟨relabel m s.start, relabel m s.stop⟩⟩

instance : Labeled Name := ⟨fun m n => ⟨n.text, relabel m n.span⟩⟩

/-! ### Values and types -/

instance : Labeled Variable := ⟨fun m v => ⟨relabel m v.name, relabel m v.span⟩⟩

instance : Labeled StringValue := ⟨fun m v => ⟨v.text, v.block && m.block v.text, relabel m v.span⟩⟩

mutual

/-- A value with its labels changed. -/
def Value.withLabels (m : Relabeling) : Value → Value
  | .variable v => .variable (relabel m v)
  | .int v => .int ⟨v.text, relabel m v.span⟩
  | .float v => .float ⟨v.text, relabel m v.span⟩
  | .string v => .string (relabel m v)
  | .boolean v => .boolean ⟨v.value, relabel m v.span⟩
  | .null v => .null ⟨relabel m v.span⟩
  | .enum v => .enum ⟨v.text, relabel m v.span⟩
  | .list ⟨vs, s⟩ => .list ⟨Value.allWithLabels m vs, relabel m s⟩
  | .object ⟨fs, s⟩ => .object ⟨ObjectField.allWithLabels m fs, relabel m s⟩

/-- Values with their labels changed. -/
def Value.allWithLabels (m : Relabeling) : List Value → List Value
  | [] => []
  | v :: vs => v.withLabels m :: Value.allWithLabels m vs

/-- Fields of an object with their labels changed. -/
def ObjectField.allWithLabels (m : Relabeling) : List ObjectField → List ObjectField
  | [] => []
  | ⟨n, v, s⟩ :: fs =>
    ⟨relabel m n, v.withLabels m, relabel m s⟩ :: ObjectField.allWithLabels m fs

end

instance : Labeled Value := ⟨Value.withLabels⟩

instance : Labeled ObjectField :=
  ⟨fun m f => ⟨relabel m f.name, relabel m f.value, relabel m f.span⟩⟩

instance : Labeled NamedType := ⟨fun m t => ⟨relabel m t.name, relabel m t.span⟩⟩

/-- A reference to a type with its labels changed. -/
def TypeRef.withLabels (m : Relabeling) : TypeRef → TypeRef
  | .named t => .named (relabel m t)
  | .list ⟨t, s⟩ => .list ⟨t.withLabels m, relabel m s⟩
  | .nonNull ⟨t, s⟩ => .nonNull ⟨t.withLabels m, relabel m s⟩

instance : Labeled TypeRef := ⟨TypeRef.withLabels⟩

/-! ### Selections -/

instance : Labeled Argument := ⟨fun m a => ⟨relabel m a.name, relabel m a.value, relabel m a.span⟩⟩

instance : Labeled Directive :=
  ⟨fun m d => ⟨relabel m d.name, relabel m d.arguments, relabel m d.span⟩⟩

instance : Labeled FragmentSpread :=
  ⟨fun m f => ⟨relabel m f.name, relabel m f.directives, relabel m f.span⟩⟩

mutual

/-- A selection with its labels changed. -/
def Selection.withLabels (m : Relabeling) : Selection → Selection
  | .field f => .field (f.withLabels m)
  | .spread f => .spread (relabel m f)
  | .inline f => .inline (f.withLabels m)

/-- A field with its labels changed. -/
def FieldSelection.withLabels (m : Relabeling) : FieldSelection → FieldSelection
  | ⟨a, n, as, ds, none, s⟩ => ⟨relabel m a, relabel m n, relabel m as,
      relabel m ds, none, relabel m s⟩
  | ⟨a, n, as, ds, some x, s⟩ => ⟨relabel m a, relabel m n, relabel m as,
      relabel m ds, some (x.withLabels m), relabel m s⟩

/-- A fragment in place with its labels changed. -/
def InlineFragment.withLabels (m : Relabeling) : InlineFragment → InlineFragment
  | ⟨c, ds, x, s⟩ =>
    ⟨relabel m c, relabel m ds, x.withLabels m, relabel m s⟩

/-- A selection set with its labels changed. -/
def SelectionSet.withLabels (m : Relabeling) : SelectionSet → SelectionSet
  | ⟨xs, s⟩ => ⟨Selection.allWithLabels m xs, relabel m s⟩

/-- Selections with their labels changed. -/
def Selection.allWithLabels (m : Relabeling) : List Selection → List Selection
  | [] => []
  | x :: xs => x.withLabels m :: Selection.allWithLabels m xs

end

instance : Labeled Selection := ⟨Selection.withLabels⟩

instance : Labeled FieldSelection := ⟨FieldSelection.withLabels⟩

instance : Labeled InlineFragment := ⟨InlineFragment.withLabels⟩

instance : Labeled SelectionSet := ⟨SelectionSet.withLabels⟩

/-! ### Operations and fragments -/

instance : Labeled VariableDefinition :=
  ⟨fun m d => ⟨relabel m d.declared, relabel m d.type, relabel m d.default, relabel m d.directives,
    relabel m d.span⟩⟩

instance : Labeled OperationDefinition :=
  ⟨fun m d => ⟨d.operation, relabel m d.name, relabel m d.variableDefinitions,
    relabel m d.directives, relabel m d.selectionSet, relabel m d.span⟩⟩

instance : Labeled FragmentDefinition :=
  ⟨fun m d => ⟨relabel m d.name, relabel m d.typeCondition, relabel m d.directives,
    relabel m d.selectionSet, relabel m d.span⟩⟩

/-! ### Types and directives -/

instance : Labeled InputValueDefinition :=
  ⟨fun m d => ⟨relabel m d.description, relabel m d.name, relabel m d.type, relabel m d.default,
    relabel m d.directives, relabel m d.span⟩⟩

instance : Labeled FieldDefinition :=
  ⟨fun m d => ⟨relabel m d.description, relabel m d.name, relabel m d.arguments, relabel m d.type,
    relabel m d.directives, relabel m d.span⟩⟩

instance : Labeled ScalarDefinition :=
  ⟨fun m d => ⟨relabel m d.description, relabel m d.name, relabel m d.directives,
    relabel m d.span⟩⟩

instance : Labeled CompositeDefinition :=
  ⟨fun m d => ⟨relabel m d.description, relabel m d.name, relabel m d.interfaces,
    relabel m d.directives, relabel m d.fields, relabel m d.span⟩⟩

instance : Labeled UnionDefinition :=
  ⟨fun m d => ⟨relabel m d.description, relabel m d.name, relabel m d.directives,
    relabel m d.members, relabel m d.span⟩⟩

instance : Labeled EnumValueDefinition :=
  ⟨fun m d => ⟨relabel m d.description, relabel m d.name, relabel m d.directives,
    relabel m d.span⟩⟩

instance : Labeled EnumDefinition :=
  ⟨fun m d => ⟨relabel m d.description, relabel m d.name, relabel m d.directives,
    relabel m d.values, relabel m d.span⟩⟩

instance : Labeled InputDefinition :=
  ⟨fun m d => ⟨relabel m d.description, relabel m d.name, relabel m d.directives,
    relabel m d.fields, relabel m d.span⟩⟩

instance : Labeled TypeDefinition :=
  ⟨fun m d => match d with
    | .scalar d => .scalar (relabel m d)
    | .object d => .object (relabel m d)
    | .interface d => .interface (relabel m d)
    | .union d => .union (relabel m d)
    | .enum d => .enum (relabel m d)
    | .input d => .input (relabel m d)⟩

instance : Labeled TypeExtension := ⟨fun m d => ⟨relabel m d.definition, relabel m d.span⟩⟩

instance : Labeled RootOperationType :=
  ⟨fun m d => ⟨d.operation, relabel m d.keyword, relabel m d.type, relabel m d.span⟩⟩

instance : Labeled SchemaDefinition :=
  ⟨fun m d => ⟨relabel m d.description, relabel m d.directives, relabel m d.operationTypes,
    relabel m d.span⟩⟩

instance : Labeled DirectiveDefinition :=
  ⟨fun m d => ⟨relabel m d.description, relabel m d.name, relabel m d.arguments, d.repeatable,
    d.locations, relabel m d.span⟩⟩

instance : Labeled Definition :=
  ⟨fun m d => match d with
    | .operation d => .operation (relabel m d)
    | .fragment d => .fragment (relabel m d)
    | .schema d => .schema (relabel m d)
    | .type d => .type (relabel m d)
    | .directive d => .directive (relabel m d)
    | .extension d => .extension (relabel m d)⟩

instance : Labeled Document := ⟨fun m d => ⟨relabel m d.definitions, relabel m d.span⟩⟩

/-! ### Lists -/

@[simp] theorem Value.allWithLabels_eq (m : Relabeling) (vs : List Value) :
    Value.allWithLabels m vs = relabel m vs := by
  induction vs with
  | nil => rfl
  | cons v vs ih => rw [Value.allWithLabels, ih]; rfl

@[simp] theorem ObjectField.allWithLabels_eq (m : Relabeling) (fs : List ObjectField) :
    ObjectField.allWithLabels m fs = relabel m fs := by
  induction fs with
  | nil => rfl
  | cons f fs ih => cases f; rw [ObjectField.allWithLabels, ih]; rfl

@[simp] theorem Selection.allWithLabels_eq (m : Relabeling) (xs : List Selection) :
    Selection.allWithLabels m xs = relabel m xs := by
  induction xs with
  | nil => rfl
  | cons x xs ih => rw [Selection.allWithLabels, ih]; rfl

section Lists
variable {α : Type} [Labeled α] (m : Relabeling)

@[simp] theorem relabel_nil : relabel m ([] : List α) = [] := rfl

@[simp] theorem relabel_cons (x : α) (xs : List α) :
    relabel m (x :: xs) = relabel m x :: relabel m xs := rfl

@[simp] theorem relabel_none : relabel m (none : Option α) = none := rfl

@[simp] theorem relabel_some (x : α) : relabel m (some x) = some (relabel m x) := rfl

end Lists

theorem relabel_move_string (φ : Nat → Nat) (text : String) (block : Bool) (s : Span) :
    relabel (.move φ) (⟨text, block, s⟩ : StringValue) = ⟨text, block, relabel (.move φ) s⟩ := by
  cases block <;> rfl

/-! ### Nodes with lists of nodes -/

section Nodes
variable (m : Relabeling)

@[simp] theorem relabel_list (vs : List Value) (s : Span) :
    relabel m (Value.list ⟨vs, s⟩) = .list ⟨relabel m vs, relabel m s⟩ := by
  rw [← Value.allWithLabels_eq]
  rfl

@[simp] theorem relabel_object (fs : List ObjectField) (s : Span) :
    relabel m (Value.object ⟨fs, s⟩) = .object ⟨relabel m fs, relabel m s⟩ := by
  rw [← ObjectField.allWithLabels_eq]
  rfl

@[simp] theorem relabel_fieldSelection (a : Option Name) (n : Name) (as : List Argument)
    (ds : List Directive) (x : Option SelectionSet) (s : Span) :
    relabel m (⟨a, n, as, ds, x, s⟩ : FieldSelection) =
      ⟨relabel m a, relabel m n, relabel m as, relabel m ds, relabel m x, relabel m s⟩ := by
  cases x <;> rfl

@[simp] theorem relabel_selectionSet (xs : List Selection) (s : Span) :
    relabel m (⟨xs, s⟩ : SelectionSet) = ⟨relabel m xs, relabel m s⟩ := by
  rw [← Selection.allWithLabels_eq]
  rfl

end Nodes

end QueryDocs
