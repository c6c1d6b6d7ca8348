import QueryDocs.Document

/-! # Depth

How deep the nodes of a document are nested: types in brackets or without null, values in lists and
objects, and selections in selection sets. The walk of a document goes no deeper than that. -/

namespace QueryDocs

/-- The greatest depth of some items, given the depth of each; without items, zero. -/
def greatest {α : Type} (f : α → Nat) : List α → Nat
  | [] => 0
  | x :: xs => max (f x) (greatest f xs)

theorem le_greatest {α : Type} {f : α → Nat} {x : α} {xs : List α} (h : x ∈ xs) :
    f x ≤ greatest f xs := by
  induction xs with
  | nil => cases h
  | cons y ys ih =>
    rw [greatest]
    rcases List.mem_cons.mp h with rfl | h
    · omega
    · have := ih h
      omega

/-! ### Values and types -/

/-- How deep types are nested in a reference to a type, itself counted. -/
def TypeRef.depth : TypeRef → Nat
  | .named _ => 1
  | .list ⟨t, _⟩ => t.depth + 1
  | .nonNull ⟨t, _⟩ => t.depth + 1

mutual

/-- How deep values are nested in a value, itself counted. -/
def Value.depth : Value → Nat
  | .list ⟨vs, _⟩ => Value.depths vs + 1
  | .object ⟨fs, _⟩ => ObjectField.depths fs + 1
  | _ => 1

/-- The greatest depth of some values. -/
def Value.depths : List Value → Nat
  | [] => 0
  | v :: vs => max v.depth (Value.depths vs)

/-- The greatest depth of the values of some fields. -/
def ObjectField.depths : List ObjectField → Nat
  | [] => 0
  | ⟨_, v, _⟩ :: fs => max v.depth (ObjectField.depths fs)

end

theorem Value.depths_eq (vs : List Value) : Value.depths vs = greatest Value.depth vs := by
  induction vs with
  | nil => rfl
  | cons v vs ih => rw [Value.depths, greatest, ih]

theorem ObjectField.depths_eq (fs : List ObjectField) :
    ObjectField.depths fs = greatest (fun f => f.value.depth) fs := by
  induction fs with
  | nil => rfl
  | cons f fs ih =>
    obtain ⟨name, v, s⟩ := f
    rw [ObjectField.depths, greatest, ih]

/-! ### Selections -/

/-- How deep values are nested in the arguments. -/
def Argument.depths (as : List Argument) : Nat := greatest (fun a => a.value.depth) as

/-- How deep values are nested in the arguments of directives. -/
def Directive.depths (ds : List Directive) : Nat := greatest (fun d => Argument.depths d.arguments) ds

mutual

/-- How deep nodes are nested in a selection. -/
def Selection.depth : Selection → Nat
  | .field f => f.depth
  | .spread f => Directive.depths f.directives
  | .inline f => f.depth

/-- How deep nodes are nested in a field. -/
def FieldSelection.depth : FieldSelection → Nat
  | ⟨_, _, as, ds, none, _⟩ => max (Argument.depths as) (Directive.depths ds)
  | ⟨_, _, as, ds, some x, _⟩ => max (max (Argument.depths as) (Directive.depths ds)) x.depth

/-- How deep nodes are nested in a fragment in place. -/
def InlineFragment.depth : InlineFragment → Nat
  | ⟨_, ds, x, _⟩ => max (Directive.depths ds) x.depth

/-- How deep selection sets are nested in a selection set, itself counted. -/
def SelectionSet.depth : SelectionSet → Nat
  | ⟨xs, _⟩ => Selection.depths xs + 1

/-- The greatest depth of some selections. -/
def Selection.depths : List Selection → Nat
  | [] => 0
  | x :: xs => max x.depth (Selection.depths xs)

end

theorem Selection.depths_eq (xs : List Selection) : Selection.depths xs = greatest Selection.depth xs := by
  induction xs with
  | nil => rfl
  | cons x xs ih => rw [Selection.depths, greatest, ih]

/-! ### Definitions -/

/-- How deep nodes are nested in the declaration of a variable. -/
def VariableDefinition.depth (d : VariableDefinition) : Nat :=
  max (max d.type.depth (greatest Value.depth d.default.toList)) (Directive.depths d.directives)

/-- How deep nodes are nested in an operation. -/
def OperationDefinition.depth (d : OperationDefinition) : Nat :=
  max (max (greatest VariableDefinition.depth d.variableDefinitions) (Directive.depths d.directives))
    d.selectionSet.depth

/-- How deep nodes are nested in a fragment. -/
def FragmentDefinition.depth (d : FragmentDefinition) : Nat :=
  max (Directive.depths d.directives) d.selectionSet.depth

/-- How deep nodes are nested in a definition that can be executed; the others are not walked. -/
def Definition.depth : Definition → Nat
  | .operation d => d.depth
  | .fragment d => d.depth
  | _ => 0

/-- How deep the nodes of a document are nested. -/
def Document.depth (d : Document) : Nat := greatest Definition.depth d.definitions

end QueryDocs
