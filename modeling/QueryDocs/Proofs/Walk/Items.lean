import Mathlib.Data.List.Basic
import QueryDocs.Walk.Node

/-! # What a walk meets

Right inside a node stand the items that a walk meets there, in the order in which it meets them
(`NodeKind.parts`). A node is told by its items and by what it says on its own
(`NodeKind.Agrees.eq_of_parts`). -/

namespace QueryDocs

/-- What a walk meets: a node, or a definition that it passes by. -/
inductive Item where
  | node (k : NodeKind) (n : k.Node)
  | passed (d : Definition)

namespace Item

/-- A value as an item. -/
def ofValue : Value → Item
  | .variable x => node .variable x
  | .int x => node .int x
  | .float x => node .float x
  | .string x => node .string x
  | .boolean x => node .boolean x
  | .null x => node .null x
  | .enum x => node .enum x
  | .list x => node .list x
  | .object x => node .object x

/-- A reference to a type as an item. -/
def ofType : TypeRef → Item
  | .named t => node .namedType t
  | .list t => node .listType t
  | .nonNull t => node .nonNullType t

/-- A selection as an item. -/
def ofSelection : Selection → Item
  | .field f => node .field f
  | .spread f => node .spread f
  | .inline f => node .inline f

/-- A definition as an item; all but operations and fragments are passed by. -/
def ofDefinition : Definition → Item
  | .operation d => node .operation d
  | .fragment d => node .fragment d
  | d => passed d

theorem node_injective (k : NodeKind) : Function.Injective (node k) := fun _ _ h => by
  cases h
  rfl

theorem ofValue_injective : Function.Injective ofValue := fun v w h => by
  cases v <;> cases w <;> cases h <;> rfl

theorem ofType_injective : Function.Injective ofType := fun t u h => by
  cases t <;> cases u <;> cases h <;> rfl

theorem ofSelection_injective : Function.Injective ofSelection := fun x y h => by
  cases x <;> cases y <;> cases h <;> rfl

theorem toList_injective {α : Type} : Function.Injective (@Option.toList α) := fun x y h => by
  cases x <;> cases y <;> cases h <;> rfl

theorem ofDefinition_injective : Function.Injective ofDefinition := fun d e h => by
  cases d <;> cases e <;> cases h <;> rfl

end Item

namespace NodeKind

open Item

/-- **The items right inside a node**, place by place, in the order of a walk. -/
def parts : (k : NodeKind) → k.Node → List (List Item)
  | document, n => [n.definitions.map ofDefinition]
  | operation, n => [n.name.toList.map (node name), n.variableDefinitions.map (node variableDefinition),
      n.directives.map (node directive), [node selectionSet n.selectionSet]]
  | fragment, n => [[node namedType n.typeCondition], [node name n.name],
      n.directives.map (node directive), [node selectionSet n.selectionSet]]
  | variableDefinition, n => [[node «variable» n.declared], [ofType n.type],
      n.default.toList.map ofValue, n.directives.map (node directive)]
  | «variable», n => [[node name n.name]]
  | selectionSet, n => [n.selections.map ofSelection]
  | field, n => [[node name n.name], n.aliasName.toList.map (node name),
      n.arguments.map (node argument), n.selectionSet.toList.map (node selectionSet),
      n.directives.map (node directive)]
  | spread, n => [[node name n.name], n.directives.map (node directive)]
  | inline, n => [n.typeCondition.toList.map (node namedType), n.directives.map (node directive),
      [node selectionSet n.selectionSet]]
  | argument, n => [[node name n.name], [ofValue n.value]]
  | directive, n => [[node name n.name], n.arguments.map (node argument)]
  | list, n => [n.values.map ofValue]
  | object, n => [n.fields.map (node objectField)]
  | objectField, n => [[node name n.name], [ofValue n.value]]
  | namedType, n => [[node name n.name]]
  | listType, n => [[ofType n.item]]
  | nonNullType, n => [[ofType n.nullable]]
  | name, _ | int, _ | float, _ | string, _ | boolean, _ | null, _ | enum, _ => []

/-- The type of an operation, for a node that is one. -/
def operation? : (k : NodeKind) → k.Node → Option OperationType
  | operation, n => some n.operation
  | _, _ => none

/-- Two nodes of a kind are the same but for the items inside them, of which there are as many at each
place. -/
structure Agrees (k : NodeKind) (m n : k.Node) : Prop where
  span : k.span m = k.span n
  leaf : k.isLeaf = true → m = n
  operation : k.operation? m = k.operation? n
  lengths : (k.parts m).map List.length = (k.parts n).map List.length

variable {k : NodeKind} {m n o : k.Node}

theorem Agrees.symm (h : k.Agrees m n) : k.Agrees n m :=
  ⟨h.span.symm, fun hk => (h.leaf hk).symm, h.operation.symm, h.lengths.symm⟩

theorem Agrees.trans (h : k.Agrees m n) (h' : k.Agrees n o) : k.Agrees m o :=
  ⟨h.span.trans h'.span, fun hk => (h.leaf hk).trans (h'.leaf hk), h.operation.trans h'.operation,
    h.lengths.trans h'.lengths⟩

/-- **A node is told by the items inside it** and by what it says on its own. -/
theorem Agrees.eq_of_parts (h : k.Agrees m n) (hparts : (k.parts m).flatten = (k.parts n).flatten) :
    m = n := by
  obtain ⟨hspan, hleaf, hoperation, hlengths⟩ := h
  have hsame : k.parts m = k.parts n := List.eq_iff_flatten_eq.mpr ⟨hparts, hlengths⟩
  cases k with
  | name | int | float | string | boolean | null | enum => exact hleaf rfl
  | _ =>
    cases m
    cases n
    simp [parts, (node_injective _).eq_iff, (node_injective _).list_map.eq_iff,
      ofValue_injective.eq_iff, ofValue_injective.list_map.eq_iff, ofType_injective.eq_iff,
      ofSelection_injective.list_map.eq_iff, ofDefinition_injective.list_map.eq_iff,
      toList_injective.eq_iff] at hsame
    simp_all [NodeKind.span, operation?]

end NodeKind

end QueryDocs
