import QueryDocs.Proofs.Document.Leaves
import QueryDocs.Proofs.Walk.Walked

/-! # Walks that change leaves

A visitor that changes leaves and gives back all else keeps each item with its leaves changed
(`Walked.eq_mapLeaves`): inside a node stand the same items as before, with their leaves changed, and all
that a node says on its own is kept (`NodeKind.agrees_mapLeaves`). -/

namespace QueryDocs

/-- A node with its leaves changed; a leaf is changed itself. -/
def NodeKind.mapLeaves (g : NodeMap) : (k : NodeKind) → k.Node → k.Node
  | document, n => n.mapLeaves g
  | operation, n => n.mapLeaves g
  | fragment, n => n.mapLeaves g
  | variableDefinition, n => n.mapLeaves g
  | «variable», n => n.mapLeaves g
  | selectionSet, n => n.mapLeaves g
  | field, n => n.mapLeaves g
  | spread, n => n.mapLeaves g
  | inline, n => n.mapLeaves g
  | argument, n => n.mapLeaves g
  | directive, n => n.mapLeaves g
  | list, n => n.mapLeaves g
  | object, n => n.mapLeaves g
  | objectField, n => n.mapLeaves g
  | namedType, n => n.mapLeaves g
  | listType, n => n.mapLeaves g
  | nonNullType, n => n.mapLeaves g
  | k, n => g k n

@[simp] theorem NodeKind.mapLeaves_id {k : NodeKind} (n : k.Node) : k.mapLeaves (fun _ => id) n = n := by
  cases k <;> simp [NodeKind.mapLeaves]

section Items
variable (g : NodeMap)

namespace Item

/-- An item with its leaves changed. -/
def mapLeaves : Item → Item
  | node k n => node k (k.mapLeaves g n)
  | passed d => ofDefinition d

@[simp] theorem mapLeaves_node (k : NodeKind) (n : k.Node) :
    (node k n).mapLeaves g = node k (k.mapLeaves g n) := rfl

@[simp] theorem mapLeaves_ofValue (x : Value) : (ofValue x).mapLeaves g = ofValue (x.mapLeaves g) := by
  cases x <;> simp [ofValue, NodeKind.mapLeaves, Value.mapLeaves]

@[simp] theorem mapLeaves_ofType (t : TypeRef) : (ofType t).mapLeaves g = ofType (t.mapLeaves g) := by
  cases t <;> simp [ofType, NodeKind.mapLeaves, TypeRef.mapLeaves]

@[simp] theorem mapLeaves_ofSelection (x : Selection) :
    (ofSelection x).mapLeaves g = ofSelection (x.mapLeaves g) := by
  cases x <;> simp [ofSelection, NodeKind.mapLeaves, Selection.mapLeaves]

@[simp] theorem mapLeaves_ofDefinition (d : Definition) :
    (ofDefinition d).mapLeaves g = ofDefinition (d.mapLeaves g) := by
  cases d <;> rfl

end Item

namespace NodeKind

variable {k : NodeKind}

theorem mapLeaves_of_isLeaf (hk : k.isLeaf = true) (n : k.Node) : k.mapLeaves g n = g k n := by
  cases k <;> first | rfl | cases hk

theorem parts_of_isLeaf (hk : k.isLeaf = true) (n : k.Node) : k.parts n = [] := by
  cases k <;> first | rfl | cases hk

/-- **Inside a node with its leaves changed** stand the same items with their leaves changed. -/
theorem parts_mapLeaves (hk : k.isLeaf = false) (n : k.Node) :
    k.parts (k.mapLeaves g n) = (k.parts n).map (List.map (Item.mapLeaves g)) := by
  cases k with
  | name | int | float | string | boolean | null | enum => cases hk
  | _ =>
    cases n
    simp [parts, mapLeaves, Document.mapLeaves, OperationDefinition.mapLeaves,
      FragmentDefinition.mapLeaves, VariableDefinition.mapLeaves, Variable.mapLeaves,
      SelectionSet.mapLeaves_eq, FieldSelection.mapLeaves_eq, FragmentSpread.mapLeaves,
      InlineFragment.mapLeaves, Argument.mapLeaves, Directive.mapLeaves, ListValue.mapLeaves_eq,
      ObjectValue.mapLeaves_eq, ObjectField.mapLeaves, NamedType.mapLeaves, ListType.mapLeaves,
      NonNullType.mapLeaves, Option.toList_map, Function.comp_def]

theorem agrees_mapLeaves (hk : k.isLeaf = false) (n : k.Node) : k.Agrees n (k.mapLeaves g n) where
  span := by
    cases k with
    | name | int | float | string | boolean | null | enum => cases hk
    | field =>
      rw [mapLeaves, FieldSelection.mapLeaves_eq]
      rfl
    | _ =>
      cases n
      rfl
  leaf h := absurd h (by simp [hk])
  operation := by
    cases k with
    | name | int | float | string | boolean | null | enum => cases hk
    | _ => rfl
  lengths := by simp [parts_mapLeaves g hk, Function.comp_def]

end NodeKind

end Items

/-! ### Visitors that change leaves -/

section Visitors
variable {σ : Type}

/-- A visitor changes leaves and gives back all else. -/
structure Visitor.ChangesLeaves (v : Visitor σ) (table : FragmentTable) (g : NodeMap) : Prop where
  node : ∀ phase k n s, k.isLeaf = false → ((v.node phase table k n).run s).1 = n
  leaf : ∀ k n s, k.isLeaf = true →
    ((v.node .leave table k ((v.node .enter table k n).run s).1).run
      ((v.node .enter table k n).run s).2).1 = g k n
  definition : ∀ d s, ((v.definition table d).run s).1 = d

variable {v : Visitor σ} {table : FragmentTable} {g : NodeMap} {items items' : List Item} {s s' : σ}
  {calls : List Call}

/-- **The items that are kept** are those that were given, with their leaves changed. -/
theorem Walked.eq_mapLeaves (hv : v.ChangesLeaves table g) (h : Walked v table items s calls items' s') :
    items' = items.map (Item.mapLeaves g) := by
  induction h with
  | nil => rfl
  | @node k n n₁ n₂ n₃ _ _ _ _ s s₁ s₂ _ _ henter hinside hagrees hleave _ ihinside ihrest =>
    have hkept : n₃ = k.mapLeaves g n := by
      cases hk : k.isLeaf with
      | true =>
        -- nothing stands between the two calls for a leaf
        obtain rfl := hagrees.leaf hk
        rw [NodeKind.parts_of_isLeaf hk] at hinside
        cases hinside
        rw [NodeKind.mapLeaves_of_isLeaf g hk, ← hv.leaf k n s hk, henter, hleave]
      | false =>
        obtain rfl : n₁ = n := by rw [← hv.node .enter k n s hk, henter]
        obtain rfl : n₃ = n₂ := by rw [← hv.node .leave k n₂ s₂ hk, hleave]
        refine (hagrees.symm.trans (NodeKind.agrees_mapLeaves g hk n₁)).eq_of_parts ?_
        rw [ihinside, NodeKind.parts_mapLeaves g hk, List.map_flatten]
    rw [hkept, ihrest]
    rfl
  | @passed d d₁ _ _ _ s _ _ hpass _ ih =>
    obtain rfl : d₁ = d := by rw [← hv.definition d s, hpass]
    rw [ih]
    rfl

end Visitors

end QueryDocs
