import QueryDocs.Import.Operations
import QueryDocs.Proofs.Operations
import QueryDocs.Proofs.Walk.Reached
import QueryDocs.Proofs.Walk.Visit

/-! # Operations met on a walk

A walk meets the operations of a document in the order in which they are written, and nothing else looks
like one to the visitor that collects them (`Document.collectOperations_eq`). -/

namespace QueryDocs

/-- The operations in an item, as they are noted. -/
def Item.operationKeys : Item → List (Option String × OperationType)
  | .node .document d => d.operationKeys
  | .node .operation op => [op.key]
  | _ => []

section Parts

@[simp] theorem Item.operationKeys_operation (op : OperationDefinition) :
    (node .operation op).operationKeys = [op.key] := rfl

@[simp] theorem Item.operationKeys_node {k : NodeKind} (hdocument : k ≠ .document)
    (hoperation : k ≠ .operation) (n : k.Node) : (node k n).operationKeys = [] := by
  cases k <;> first | rfl | exact absurd rfl hdocument | exact absurd rfl hoperation

theorem Item.flatMap_operationKeys_ofDefinition (ds : List Definition) :
    (ds.map ofDefinition).flatMap operationKeys =
      (ds.filterMap Definition.operation?).map OperationDefinition.key := by
  induction ds with
  | nil => rfl
  | cons d ds ih =>
    rw [List.map_cons, List.flatMap_cons, List.filterMap_cons, ih]
    cases d <;> rfl

@[simp] theorem Item.operationKeys_ofValue (x : Value) : (ofValue x).operationKeys = [] := by
  cases x <;> rfl

@[simp] theorem Item.operationKeys_ofType (t : TypeRef) : (ofType t).operationKeys = [] := by
  cases t <;> rfl

@[simp] theorem Item.operationKeys_ofSelection (x : Selection) : (ofSelection x).operationKeys = [] := by
  cases x <;> rfl

/-- What is noted for a node itself, before the items inside it. -/
def NodeKind.noted : (k : NodeKind) → k.Node → List (Option String × OperationType)
  | .operation, op => [op.key]
  | _, _ => []

theorem NodeKind.noted_append (k : NodeKind) (n : k.Node) :
    k.noted n ++ (k.parts n).flatten.flatMap Item.operationKeys = (Item.node k n).operationKeys := by
  cases k with
  | document =>
    rw [NodeKind.parts, List.flatten_singleton, Item.flatMap_operationKeys_ofDefinition]
    rfl
  | _ => simp [NodeKind.parts, NodeKind.noted]

end Parts

section Collection
variable {table : FragmentTable} {items items' : List Item} {calls : List Call}
  {s s' : Array (Option String × OperationType)}

/-- The visitor notes an operation before the nodes inside it, and gives each node back. -/
theorem operationCollector_enter (k : NodeKind) (n : k.Node) :
    (operationCollector.node .enter table k n).run s = (n, s ++ (k.noted n).toArray) := by
  cases k with
  | operation => exact congrArg (Prod.mk n) Array.append_singleton.symm
  | _ => exact congrArg (Prod.mk n) Array.append_empty.symm

theorem operationCollector_leave (k : NodeKind) (n : k.Node) :
    (operationCollector.node .leave table k n).run s = (n, s) := by
  cases k <;> rfl

/-- **The operations that are met on a walk are noted in order.** -/
theorem Walked.collected (h : Walked operationCollector table items s calls items' s') :
    s'.toList = s.toList ++ items.flatMap Item.operationKeys := by
  induction h with
  | nil => exact (List.append_nil _).symm
  | node henter hinside hagrees hleave hrest ihinside ihrest =>
    cases (operationCollector_enter _ _).symm.trans henter
    cases (operationCollector_leave _ _).symm.trans hleave
    rw [ihrest, ihinside, List.flatMap_cons, ← NodeKind.noted_append]
    simp
  | passed hpass _ ih =>
    cases hpass
    exact ih

/-- **Collecting the operations of a document** gives them in order, unless its fragments cannot be told by
their names. -/
theorem Document.collectOperations_eq (d : Document) :
    d.collectOperations = d.fragmentTable.map fun _ => d.operationKeys := by
  cases htable : d.fragmentTable with
  | error e =>
    simp only [collectOperations, walk, visit, htable]
    rfl
  | ok table =>
    obtain ⟨d', s', hrun⟩ := exists_visit htable (operationCollector_opens table) le_rfl #[]
    obtain ⟨calls, -, hwalked⟩ := exists_walked htable hrun
    have hwalk : d.walk operationCollector operationCollector_opens #[] = (.ok d', s') := by
      simp only [walk, hrun, Option.get_some]
    rw [collectOperations, hwalk]
    change Except.ok s'.toList = _
    rw [hwalked.collected]
    simp [Item.operationKeys, Except.map]

end Collection

end QueryDocs
