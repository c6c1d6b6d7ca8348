import QueryDocs.Walk.Node

/-! # Changes of leaves

Leaves of a document are its names and the values that have nothing inside. A `NodeMap` changes those
inside the operations and fragments of a document, each of them once and by its kind
(`Document.mapLeaves`); all else stays as it is. -/

namespace QueryDocs

/-- A change of nodes, kind by kind. -/
abbrev NodeMap : Type := (k : NodeKind) → k.Node → k.Node

variable (g : NodeMap)

/-! ### Values and types -/

/-- A variable with its leaves changed. -/
def Variable.mapLeaves (x : Variable) : Variable := { x with name := g .name x.name }

mutual

/-- A value with its leaves changed. -/
def Value.mapLeaves : Value → Value
  | .variable x => .variable (x.mapLeaves g)
  | .int x => .int (g .int x)
  | .float x => .float (g .float x)
  | .string x => .string (g .string x)
  | .boolean x => .boolean (g .boolean x)
  | .null x => .null (g .null x)
  | .enum x => .enum (g .enum x)
  | .list x => .list x.mapLeaves
  | .object x => .object x.mapLeaves

/-- A list with its leaves changed. -/
def ListValue.mapLeaves : ListValue → ListValue
  | ⟨xs, s⟩ => ⟨Value.mapAllLeaves xs, s⟩

/-- An object with its leaves changed. -/
def ObjectValue.mapLeaves : ObjectValue → ObjectValue
  | ⟨fs, s⟩ => ⟨ObjectField.mapAllLeaves fs, s⟩

/-- Values with their leaves changed. -/
def Value.mapAllLeaves : List Value → List Value
  | [] => []
  | x :: xs => x.mapLeaves :: Value.mapAllLeaves xs

/-- Fields of an object with their leaves changed. -/
def ObjectField.mapAllLeaves : List ObjectField → List ObjectField
  | [] => []
  | ⟨n, x, s⟩ :: fs => ⟨g .name n, x.mapLeaves, s⟩ :: ObjectField.mapAllLeaves fs

end

/-- A field of an object with its leaves changed. -/
def ObjectField.mapLeaves (f : ObjectField) : ObjectField :=
  { f with name := g .name f.name, value := f.value.mapLeaves g }

/-- A type that is referred to by its name, with its leaves changed. -/
def NamedType.mapLeaves (t : NamedType) : NamedType := { t with name := g .name t.name }

mutual

/-- A reference to a type with its leaves changed. -/
def TypeRef.mapLeaves : TypeRef → TypeRef
  | .named t => .named (t.mapLeaves g)
  | .list t => .list t.mapLeaves
  | .nonNull t => .nonNull t.mapLeaves

/-- A type of lists with its leaves changed. -/
def ListType.mapLeaves : ListType → ListType
  | ⟨t, s⟩ => ⟨t.mapLeaves, s⟩

/-- A type without null with its leaves changed. -/
def NonNullType.mapLeaves : NonNullType → NonNullType
  | ⟨t, s⟩ => ⟨t.mapLeaves, s⟩

end

/-! ### Selections -/

/-- An argument with its leaves changed. -/
def Argument.mapLeaves (a : Argument) : Argument :=
  { a with name := g .name a.name, value := a.value.mapLeaves g }

/-- A directive with its leaves changed. -/
def Directive.mapLeaves (d : Directive) : Directive :=
  { d with name := g .name d.name, arguments := d.arguments.map (·.mapLeaves g) }

/-- A use of a fragment with its leaves changed. -/
def FragmentSpread.mapLeaves (f : FragmentSpread) : FragmentSpread :=
  { f with name := g .name f.name, directives := f.directives.map (·.mapLeaves g) }

mutual

/-- A selection with its leaves changed. -/
def Selection.mapLeaves : Selection → Selection
  | .field f => .field f.mapLeaves
  | .spread f => .spread (f.mapLeaves g)
  | .inline f => .inline f.mapLeaves

/-- A field with its leaves changed. -/
def FieldSelection.mapLeaves : FieldSelection → FieldSelection
  | ⟨a, n, as, ds, none, s⟩ => ⟨a.map (g .name), g .name n, as.map (·.mapLeaves g),
      ds.map (·.mapLeaves g), none, s⟩
  | ⟨a, n, as, ds, some x, s⟩ => ⟨a.map (g .name), g .name n, as.map (·.mapLeaves g),
      ds.map (·.mapLeaves g), some x.mapLeaves, s⟩

/-- A fragment in place with its leaves changed. -/
def InlineFragment.mapLeaves : InlineFragment → InlineFragment
  | ⟨c, ds, x, s⟩ => ⟨c.map (·.mapLeaves g), ds.map (·.mapLeaves g), x.mapLeaves, s⟩

/-- A selection set with its leaves changed. -/
def SelectionSet.mapLeaves : SelectionSet → SelectionSet
  | ⟨xs, s⟩ => ⟨Selection.mapAllLeaves xs, s⟩

/-- Selections with their leaves changed. -/
def Selection.mapAllLeaves : List Selection → List Selection
  | [] => []
  | x :: xs => x.mapLeaves :: Selection.mapAllLeaves xs

end

/-! ### Definitions -/

/-- A declared variable with its leaves changed. -/
def VariableDefinition.mapLeaves (d : VariableDefinition) : VariableDefinition :=
  { d with
    declared := d.declared.mapLeaves g
    type := d.type.mapLeaves g
    default := d.default.map (·.mapLeaves g)
    directives := d.directives.map (·.mapLeaves g) }

/-- An operation with its leaves changed. -/
def OperationDefinition.mapLeaves (d : OperationDefinition) : OperationDefinition :=
  { d with
    name := d.name.map (g .name)
    variableDefinitions := d.variableDefinitions.map (·.mapLeaves g)
    directives := d.directives.map (·.mapLeaves g)
    selectionSet := d.selectionSet.mapLeaves g }

/-- A fragment with its leaves changed. -/
def FragmentDefinition.mapLeaves (d : FragmentDefinition) : FragmentDefinition :=
  { d with
    name := g .name d.name
    typeCondition := d.typeCondition.mapLeaves g
    directives := d.directives.map (·.mapLeaves g)
    selectionSet := d.selectionSet.mapLeaves g }

/-- A definition with its leaves changed, if it can be executed. -/
def Definition.mapLeaves : Definition → Definition
  | .operation d => .operation (d.mapLeaves g)
  | .fragment d => .fragment (d.mapLeaves g)
  | d => d

/-- **A document with each leaf of its operations and fragments changed.** -/
def Document.mapLeaves (d : Document) : Document :=
  { d with definitions := d.definitions.map (·.mapLeaves g) }

/-! ### Lists -/

@[simp] theorem Value.mapAllLeaves_eq (xs : List Value) :
    Value.mapAllLeaves g xs = xs.map (·.mapLeaves g) := by
  induction xs with
  | nil => rfl
  | cons x xs ih => rw [Value.mapAllLeaves, ih, List.map_cons]

@[simp] theorem ObjectField.mapAllLeaves_eq (fs : List ObjectField) :
    ObjectField.mapAllLeaves g fs = fs.map (·.mapLeaves g) := by
  induction fs with
  | nil => rfl
  | cons f fs ih =>
    cases f
    rw [ObjectField.mapAllLeaves, ih, List.map_cons]
    rfl

@[simp] theorem Selection.mapAllLeaves_eq (xs : List Selection) :
    Selection.mapAllLeaves g xs = xs.map (·.mapLeaves g) := by
  induction xs with
  | nil => rfl
  | cons x xs ih => rw [Selection.mapAllLeaves, ih, List.map_cons]

/-! ### Nodes with lists of nodes -/

theorem ListValue.mapLeaves_eq (x : ListValue) :
    x.mapLeaves g = { x with values := x.values.map (·.mapLeaves g) } := by
  cases x
  rw [ListValue.mapLeaves, Value.mapAllLeaves_eq]

theorem ObjectValue.mapLeaves_eq (x : ObjectValue) :
    x.mapLeaves g = { x with fields := x.fields.map (·.mapLeaves g) } := by
  cases x
  rw [ObjectValue.mapLeaves, ObjectField.mapAllLeaves_eq]

theorem SelectionSet.mapLeaves_eq (x : SelectionSet) :
    x.mapLeaves g = { x with selections := x.selections.map (·.mapLeaves g) } := by
  cases x
  rw [SelectionSet.mapLeaves, Selection.mapAllLeaves_eq]

theorem FieldSelection.mapLeaves_eq (f : FieldSelection) : f.mapLeaves g =
    { f with
      aliasName := f.aliasName.map (g .name)
      name := g .name f.name
      arguments := f.arguments.map (·.mapLeaves g)
      directives := f.directives.map (·.mapLeaves g)
      selectionSet := f.selectionSet.map (·.mapLeaves g) } := by
  obtain ⟨a, n, as, ds, x, s⟩ := f
  cases x <;> rfl

/-! ### Leaves that stay as they are -/

mutual

@[simp] theorem Value.mapLeaves_id : (x : Value) → x.mapLeaves (fun _ => id) = x
  | .variable _ | .int _ | .float _ | .string _ | .boolean _ | .null _ | .enum _ => rfl
  | .list x => by rw [Value.mapLeaves, ListValue.mapLeaves_id x]
  | .object x => by rw [Value.mapLeaves, ObjectValue.mapLeaves_id x]

@[simp] theorem ListValue.mapLeaves_id : (x : ListValue) → x.mapLeaves (fun _ => id) = x
  | ⟨xs, s⟩ => by rw [ListValue.mapLeaves, Value.mapAllLeaves_id xs]

@[simp] theorem ObjectValue.mapLeaves_id : (x : ObjectValue) → x.mapLeaves (fun _ => id) = x
  | ⟨fs, s⟩ => by rw [ObjectValue.mapLeaves, ObjectField.mapAllLeaves_id fs]

theorem Value.mapAllLeaves_id : (xs : List Value) → Value.mapAllLeaves (fun _ => id) xs = xs
  | [] => rfl
  | x :: xs => by rw [Value.mapAllLeaves, Value.mapLeaves_id x, Value.mapAllLeaves_id xs]

theorem ObjectField.mapAllLeaves_id :
    (fs : List ObjectField) → ObjectField.mapAllLeaves (fun _ => id) fs = fs
  | [] => rfl
  | ⟨n, x, s⟩ :: fs => by
    rw [ObjectField.mapAllLeaves, Value.mapLeaves_id x, ObjectField.mapAllLeaves_id fs, id]

end

@[simp] theorem Variable.mapLeaves_id (x : Variable) : x.mapLeaves (fun _ => id) = x := rfl

@[simp] theorem ObjectField.mapLeaves_id (f : ObjectField) : f.mapLeaves (fun _ => id) = f := by
  cases f
  simp [ObjectField.mapLeaves]

@[simp] theorem NamedType.mapLeaves_id (t : NamedType) : t.mapLeaves (fun _ => id) = t := rfl

mutual

@[simp] theorem TypeRef.mapLeaves_id : (t : TypeRef) → t.mapLeaves (fun _ => id) = t
  | .named _ => rfl
  | .list t => by rw [TypeRef.mapLeaves, ListType.mapLeaves_id t]
  | .nonNull t => by rw [TypeRef.mapLeaves, NonNullType.mapLeaves_id t]

@[simp] theorem ListType.mapLeaves_id : (t : ListType) → t.mapLeaves (fun _ => id) = t
  | ⟨t, s⟩ => by rw [ListType.mapLeaves, TypeRef.mapLeaves_id t]

@[simp] theorem NonNullType.mapLeaves_id : (t : NonNullType) → t.mapLeaves (fun _ => id) = t
  | ⟨t, s⟩ => by rw [NonNullType.mapLeaves, TypeRef.mapLeaves_id t]

end

@[simp] theorem Argument.mapLeaves_id (a : Argument) : a.mapLeaves (fun _ => id) = a := by
  simp [Argument.mapLeaves]

@[simp] theorem Directive.mapLeaves_id (d : Directive) : d.mapLeaves (fun _ => id) = d := by
  simp [Directive.mapLeaves]

@[simp] theorem FragmentSpread.mapLeaves_id (f : FragmentSpread) : f.mapLeaves (fun _ => id) = f := by
  simp [FragmentSpread.mapLeaves]

mutual

theorem Selection.mapLeaves_id : (x : Selection) → x.mapLeaves (fun _ => id) = x
  | .field f => by rw [Selection.mapLeaves, FieldSelection.mapLeaves_id f]
  | .spread f => by rw [Selection.mapLeaves, FragmentSpread.mapLeaves_id f]
  | .inline f => by rw [Selection.mapLeaves, InlineFragment.mapLeaves_id f]

@[simp] theorem FieldSelection.mapLeaves_id : (f : FieldSelection) → f.mapLeaves (fun _ => id) = f
  | ⟨a, n, as, ds, none, s⟩ => by simp [FieldSelection.mapLeaves]
  | ⟨a, n, as, ds, some x, s⟩ => by simp [FieldSelection.mapLeaves, SelectionSet.mapLeaves_id x]

@[simp] theorem InlineFragment.mapLeaves_id : (f : InlineFragment) → f.mapLeaves (fun _ => id) = f
  | ⟨c, ds, x, s⟩ => by simp [InlineFragment.mapLeaves, SelectionSet.mapLeaves_id x]

@[simp] theorem SelectionSet.mapLeaves_id : (x : SelectionSet) → x.mapLeaves (fun _ => id) = x
  | ⟨xs, s⟩ => by rw [SelectionSet.mapLeaves, Selection.mapAllLeaves_id xs]

theorem Selection.mapAllLeaves_id : (xs : List Selection) → Selection.mapAllLeaves (fun _ => id) xs = xs
  | [] => rfl
  | x :: xs => by rw [Selection.mapAllLeaves, Selection.mapLeaves_id x, Selection.mapAllLeaves_id xs]

end

@[simp] theorem VariableDefinition.mapLeaves_id (d : VariableDefinition) :
    d.mapLeaves (fun _ => id) = d := by
  simp [VariableDefinition.mapLeaves]

@[simp] theorem OperationDefinition.mapLeaves_id (d : OperationDefinition) :
    d.mapLeaves (fun _ => id) = d := by
  simp [OperationDefinition.mapLeaves]

@[simp] theorem FragmentDefinition.mapLeaves_id (d : FragmentDefinition) :
    d.mapLeaves (fun _ => id) = d := by
  simp [FragmentDefinition.mapLeaves]

@[simp] theorem Definition.mapLeaves_id (d : Definition) : d.mapLeaves (fun _ => id) = d := by
  cases d <;> simp [Definition.mapLeaves]

/-- **A document stays as it is if its leaves do.** -/
@[simp] theorem Document.mapLeaves_id (d : Document) : d.mapLeaves (fun _ => id) = d := by
  simp [Document.mapLeaves]

end QueryDocs
