import QueryDocs.Grammar.TypeSystem
import QueryDocs.Proofs.Document.Lexemes

/-! # Well-formed documents

What a document has to satisfy so that it can be written down: its tokens are of the forms their
classes prescribe, and its nodes are of the shapes that the grammar tells apart by their words. -/

namespace QueryDocs

/-- The words that do not name the member of an enumeration. -/
def reservedValues : List String := ["true", "false", "null"]

mutual

/-- No member of an enumeration is named like another value, and a constant holds no variable. -/
def Value.Shaped (isConst : Bool) : Value → Prop
  | .variable _ => isConst = false
  | .enum v => v.text ∉ reservedValues
  | .list ⟨vs, _⟩ => Value.AllShaped isConst vs
  | .object ⟨fs, _⟩ => ObjectField.AllShaped isConst fs
  | _ => True

/-- All values are shaped. -/
def Value.AllShaped (isConst : Bool) : List Value → Prop
  | [] => True
  | v :: vs => v.Shaped isConst ∧ Value.AllShaped isConst vs

/-- The values of all fields are shaped. -/
def ObjectField.AllShaped (isConst : Bool) : List ObjectField → Prop
  | [] => True
  | ⟨_, v, _⟩ :: fs => v.Shaped isConst ∧ ObjectField.AllShaped isConst fs

end

/-- Null is not excluded twice. -/
def TypeRef.Shaped : TypeRef → Prop
  | .named _ => True
  | .list ⟨t, _⟩ => t.Shaped
  | .nonNull ⟨.nonNull _, _⟩ => False
  | .nonNull ⟨.named _, _⟩ => True
  | .nonNull ⟨.list ⟨t, _⟩, _⟩ => t.Shaped

/-! ### Selections -/

/-- The value of an argument is shaped. -/
def Argument.Shaped (isConst : Bool) (a : Argument) : Prop := a.value.Shaped isConst

/-- The arguments of a directive are shaped. -/
def Directive.Shaped (isConst : Bool) (d : Directive) : Prop :=
  ∀ a ∈ d.arguments, a.Shaped isConst

mutual

/-- A fragment used by its name is not named `on`, and all parts are shaped. -/
def Selection.Shaped : Selection → Prop
  | .field f => f.Shaped
  | .spread f => f.name.text ≠ "on" ∧ ∀ d ∈ f.directives, d.Shaped false
  | .inline f => f.Shaped

/-- All parts of a field are shaped. -/
def FieldSelection.Shaped : FieldSelection → Prop
  | ⟨_, _, as, ds, none, _⟩ => (∀ a ∈ as, a.Shaped false) ∧ ∀ d ∈ ds, d.Shaped false
  | ⟨_, _, as, ds, some x, _⟩ =>
    (∀ a ∈ as, a.Shaped false) ∧ (∀ d ∈ ds, d.Shaped false) ∧ x.Shaped

/-- All parts of a fragment in place are shaped. -/
def InlineFragment.Shaped : InlineFragment → Prop
  | ⟨_, ds, x, _⟩ => (∀ d ∈ ds, d.Shaped false) ∧ x.Shaped

/-- There is a selection, and all selections are shaped. -/
def SelectionSet.Shaped : SelectionSet → Prop
  | ⟨xs, _⟩ => xs ≠ [] ∧ Selection.AllShaped xs

/-- All selections are shaped. -/
def Selection.AllShaped : List Selection → Prop
  | [] => True
  | x :: xs => x.Shaped ∧ Selection.AllShaped xs

end

/-! ### Operations and fragments -/

/-- The default value and the directives are constant, and all parts are shaped. -/
def VariableDefinition.Shaped (d : VariableDefinition) : Prop :=
  d.type.Shaped ∧ (∀ v ∈ d.default, v.Shaped true) ∧ ∀ x ∈ d.directives, x.Shaped true

/-- All parts of an operation are shaped. -/
def OperationDefinition.Shaped (d : OperationDefinition) : Prop :=
  (∀ x ∈ d.variableDefinitions, x.Shaped) ∧ (∀ x ∈ d.directives, x.Shaped false) ∧
    d.selectionSet.Shaped

/-- A fragment is not named `on`, and all its parts are shaped. -/
def FragmentDefinition.Shaped (d : FragmentDefinition) : Prop :=
  d.name.text ≠ "on" ∧ (∀ x ∈ d.directives, x.Shaped false) ∧ d.selectionSet.Shaped

/-! ### Types and directives -/

/-- The default value and the directives are constant, and all parts are shaped. -/
def InputValueDefinition.Shaped (d : InputValueDefinition) : Prop :=
  d.type.Shaped ∧ (∀ v ∈ d.default, v.Shaped true) ∧ ∀ x ∈ d.directives, x.Shaped true

/-- All parts of a field of a type are shaped. -/
def FieldDefinition.Shaped (d : FieldDefinition) : Prop :=
  (∀ a ∈ d.arguments, a.Shaped) ∧ d.type.Shaped ∧ ∀ x ∈ d.directives, x.Shaped true

/-- A member of an enumeration type is not named like another value. -/
def EnumValueDefinition.Shaped (d : EnumValueDefinition) : Prop :=
  d.name.text ∉ reservedValues ∧ ∀ x ∈ d.directives, x.Shaped true

/-- No interface behind the first is named like a word that a definition starts with. -/
def CompositeDefinition.Shaped (d : CompositeDefinition) : Prop :=
  (∀ t ∈ d.interfaces.tail, t.name.text ∉ Rule.definitionWords) ∧
    (∀ x ∈ d.directives, x.Shaped true) ∧ ∀ f ∈ d.fields, f.Shaped

/-- All parts of the definition of a type are shaped. -/
def TypeDefinition.Shaped : TypeDefinition → Prop
  | .scalar d => ∀ x ∈ d.directives, x.Shaped true
  | .object d => d.Shaped
  | .interface d => d.Shaped
  | .union d => ∀ x ∈ d.directives, x.Shaped true
  | .enum d => (∀ x ∈ d.directives, x.Shaped true) ∧ ∀ v ∈ d.values, v.Shaped
  | .input d => (∀ x ∈ d.directives, x.Shaped true) ∧ ∀ f ∈ d.fields, f.Shaped

/-- The kind of operation is the one that the word names. -/
def RootOperationType.Shaped (d : RootOperationType) : Prop :=
  d.operation = OperationType.ofKeyword? d.keyword.text

/-- There is a root type, and all parts are shaped. -/
def SchemaDefinition.Shaped (d : SchemaDefinition) : Prop :=
  (∀ x ∈ d.directives, x.Shaped true) ∧ d.operationTypes ≠ [] ∧ ∀ t ∈ d.operationTypes, t.Shaped

/-- There is a place where the directive can stand, and all parts are shaped. -/
def DirectiveDefinition.Shaped (d : DirectiveDefinition) : Prop :=
  (∀ a ∈ d.arguments, a.Shaped) ∧ d.locations ≠ []

/-! ### Documents -/

/-- All parts of a definition are shaped, and what is added to a type has no description. -/
def Definition.Shaped : Definition → Prop
  | .operation d => d.Shaped
  | .fragment d => d.Shaped
  | .schema d => d.Shaped
  | .type d => d.Shaped
  | .directive d => d.Shaped
  | .extension d => d.definition.description = none ∧ d.definition.Shaped

/-- A document as it can be written down. -/
structure Document.WellFormed (d : Document) : Prop where
  /-- Names, numbers and block strings are of the forms that tokens have. -/
  valid : ∀ l ∈ d.lexemes, l.Valid
  /-- The definitions are shaped. -/
  shaped : ∀ x ∈ d.definitions, x.Shaped

/-! ### Lists -/

theorem Value.allShaped_iff {isConst : Bool} {vs : List Value} :
    Value.AllShaped isConst vs ↔ ∀ v ∈ vs, v.Shaped isConst := by
  induction vs with
  | nil => simp [Value.AllShaped]
  | cons v vs ih => simp [Value.AllShaped, ih]

theorem ObjectField.allShaped_iff {isConst : Bool} {fs : List ObjectField} :
    ObjectField.AllShaped isConst fs ↔ ∀ f ∈ fs, f.value.Shaped isConst := by
  induction fs with
  | nil => simp [ObjectField.AllShaped]
  | cons f fs ih => cases f; simp [ObjectField.AllShaped, ih]

theorem Selection.allShaped_iff {xs : List Selection} :
    Selection.AllShaped xs ↔ ∀ x ∈ xs, x.Shaped := by
  induction xs with
  | nil => simp [Selection.AllShaped]
  | cons x xs ih => simp [Selection.AllShaped, ih]

@[simp] theorem Value.shaped_list {isConst : Bool} {vs : List Value} {s : Span} :
    (Value.list ⟨vs, s⟩).Shaped isConst ↔ ∀ v ∈ vs, v.Shaped isConst := by
  rw [Value.Shaped, Value.allShaped_iff]

@[simp] theorem Value.shaped_object {isConst : Bool} {fs : List ObjectField} {s : Span} :
    (Value.object ⟨fs, s⟩).Shaped isConst ↔ ∀ f ∈ fs, f.value.Shaped isConst := by
  rw [Value.Shaped, ObjectField.allShaped_iff]

@[simp] theorem SelectionSet.shaped_mk {xs : List Selection} {s : Span} :
    (⟨xs, s⟩ : SelectionSet).Shaped ↔ xs ≠ [] ∧ ∀ x ∈ xs, x.Shaped := by
  rw [SelectionSet.Shaped, Selection.allShaped_iff]

@[simp] theorem FieldSelection.shaped_mk {a : Option Name} {n : Name} {as : List Argument}
    {ds : List Directive} {x : Option SelectionSet} {s : Span} :
    (⟨a, n, as, ds, x, s⟩ : FieldSelection).Shaped ↔
      (∀ a ∈ as, a.Shaped false) ∧ (∀ d ∈ ds, d.Shaped false) ∧ ∀ set ∈ x, set.Shaped := by
  cases x <;> simp [FieldSelection.Shaped]

end QueryDocs
