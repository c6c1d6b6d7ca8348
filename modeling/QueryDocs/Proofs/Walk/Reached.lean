import QueryDocs.Proofs.Document.Node
import QueryDocs.Proofs.Walk.Leaves

/-! # The nodes that a walk reaches

A visitor that gives back what it is called for is called once before and once after each node of the
operations and fragments, and once for each of the other definitions (`Walked.reaches`). `Node.Listed`
gives all nodes of some trees, each as often as it stands there (`Listed.unique`); a walk meets the nodes
inside a node in an order of its own (`Node.perm_reached`), so they are compared up to their order. -/

namespace QueryDocs

namespace Node

/-! ### The nodes of trees -/

/-- The nodes right inside a node that a walk goes into: of the definitions in a document only those that
can be executed. -/
def reached : Node → List Node
  | document d => (d.definitions.filter Definition.isExecutable).map definition
  | n => n.children

/-- All nodes of some trees, one tree after the other: a node and then those inside it that a walk goes
into. -/
inductive Listed : List Node → List Node → Prop where
  | nil : Listed [] []
  | cons {n : Node} {trees inside after : List Node} (hinside : Listed n.reached inside)
      (hafter : Listed trees after) : Listed (n :: trees) (n :: (inside ++ after))

namespace Listed

variable {trees trees' nodes nodes' : List Node}

theorem unique (h : Listed trees nodes) (h' : Listed trees nodes') : nodes = nodes' := by
  induction h generalizing nodes' with
  | nil =>
    cases h'
    rfl
  | cons _ _ ihinside ihafter =>
    cases h' with
    | cons hinside hafter => rw [ihinside hinside, ihafter hafter]

/-- Trees in another order have the same nodes. -/
theorem perm (hperm : trees.Perm trees') (h : Listed trees nodes) :
    ∃ nodes', Listed trees' nodes' ∧ nodes.Perm nodes' := by
  induction hperm generalizing nodes with
  | nil => exact ⟨nodes, h, .refl _⟩
  | cons n _ ih =>
    cases h with
    | cons hinside hafter =>
      obtain ⟨after', hafter', hperm⟩ := ih hafter
      exact ⟨_, .cons hinside hafter', (hperm.append_left _).cons n⟩
  | swap n m trees =>
    cases h with
    | @cons _ _ inside _ hinside h =>
      cases h with
      | @cons _ _ inside' after hinside' hafter =>
        exact ⟨_, .cons hinside' (.cons hinside hafter),
          List.perm_append_comm_assoc (m :: inside) (n :: inside') after⟩
  | trans _ _ ih ih' =>
    obtain ⟨nodes₁, h₁, hperm₁⟩ := ih h
    obtain ⟨nodes₂, h₂, hperm₂⟩ := ih' h₁
    exact ⟨nodes₂, h₂, hperm₁.trans hperm₂⟩

end Listed

/-- A node of a walk as a part of the document. -/
def ofKind : (k : NodeKind) → k.Node → Node
  | .document, n => document n
  | .operation, n => definition (.operation n)
  | .fragment, n => definition (.fragment n)
  | .variableDefinition, n => variableDefinition n
  | .variable, n => value (.variable n)
  | .selectionSet, n => selectionSet n
  | .field, n => selection (.field n)
  | .spread, n => selection (.spread n)
  | .inline, n => selection (.inline n)
  | .argument, n => argument n
  | .directive, n => directive n
  | .name, n => name n
  | .int, n => value (.int n)
  | .float, n => value (.float n)
  | .string, n => value (.string n)
  | .boolean, n => value (.boolean n)
  | .null, n => value (.null n)
  | .enum, n => value (.enum n)
  | .list, n => value (.list n)
  | .object, n => value (.object n)
  | .objectField, n => objectField n
  | .namedType, n => typeRef (.named n)
  | .listType, n => typeRef (.list n)
  | .nonNullType, n => typeRef (.nonNull n)

end Node

/-! ### Items -/

namespace Item

/-- The node that an item is, if it is one. -/
def node? : Item → Option Node
  | node k n => some (.ofKind k n)
  | passed _ => none

/-- The definitions that a walk of an item passes by. -/
def passes : Item → List Definition
  | node .document d => d.definitions.filter (!·.isExecutable)
  | node _ _ => []
  | passed d => [d]

@[simp] theorem node?_node (k : NodeKind) (n : k.Node) : (node k n).node? = some (.ofKind k n) := rfl

@[simp] theorem node?_ofValue (x : Value) : (ofValue x).node? = some (.value x) := by cases x <;> rfl

@[simp] theorem node?_ofType (t : TypeRef) : (ofType t).node? = some (.typeRef t) := by cases t <;> rfl

@[simp] theorem node?_ofSelection (x : Selection) : (ofSelection x).node? = some (.selection x) := by
  cases x <;> rfl

@[simp] theorem passes_node {k : NodeKind} (hk : k ≠ .document) (n : k.Node) :
    (node k n).passes = [] := by
  cases k <;> first | rfl | exact absurd rfl hk

@[simp] theorem passes_ofValue (x : Value) : (ofValue x).passes = [] := by cases x <;> rfl

@[simp] theorem passes_ofType (t : TypeRef) : (ofType t).passes = [] := by cases t <;> rfl

@[simp] theorem passes_ofSelection (x : Selection) : (ofSelection x).passes = [] := by cases x <;> rfl

section Definitions
variable (ds : List Definition)

theorem filterMap_node?_ofDefinition : (ds.map ofDefinition).filterMap node? =
    (ds.filter Definition.isExecutable).map Node.definition := by
  induction ds with
  | nil => rfl
  | cons d ds ih =>
    rw [List.map_cons, List.filterMap_cons, List.filter_cons, ih]
    cases d <;> rfl

theorem flatMap_passes_ofDefinition :
    (ds.map ofDefinition).flatMap passes = ds.filter (!·.isExecutable) := by
  induction ds with
  | nil => rfl
  | cons d ds ih =>
    rw [List.map_cons, List.flatMap_cons, List.filter_cons, ih]
    cases d <;> rfl

end Definitions

end Item

section Parts
variable (k : NodeKind) (n : k.Node)

/-- **A walk meets the nodes right inside a node**, in an order of its own. -/
theorem Node.perm_reached :
    ((k.parts n).flatten.filterMap Item.node?).Perm (Node.ofKind k n).reached := by
  cases k with
  | document =>
    rw [NodeKind.parts, List.flatten_singleton, Item.filterMap_node?_ofDefinition]
    rfl
  | fragment =>
    -- the name is met behind the type condition
    simpa [NodeKind.parts, ofKind, reached, children, ofDefinition, named, Function.comp_def]
      using List.Perm.swap _ _ _
  | field =>
    -- the alias is met behind the name, and the directives behind the selection set
    have hperm : ([name n.name] ++ (n.aliasName.toList.map name ++ (n.arguments.map argument ++
        (n.selectionSet.toList.map selectionSet ++ n.directives.map directive)))).Perm
        (n.aliasName.toList.map name ++ ([name n.name] ++ (n.arguments.map argument ++
          (n.directives.map directive ++ n.selectionSet.toList.map selectionSet)))) :=
      (List.perm_append_comm_assoc _ _ _).trans
        (((List.perm_append_comm.append_left _).append_left _).append_left _)
    simpa [NodeKind.parts, ofKind, reached, children, ofSelection, Function.comp_def] using hperm
  | _ =>
    simp [NodeKind.parts, ofKind, reached, children, ofDefinition, ofSelection, ofValue, ofDefault,
      Function.comp_def]

theorem NodeKind.flatMap_passes : (k.parts n).flatten.flatMap Item.passes = (Item.node k n).passes := by
  cases k with
  | document =>
    rw [NodeKind.parts, List.flatten_singleton, Item.flatMap_passes_ofDefinition]
    rfl
  | _ => simp [NodeKind.parts]

end Parts

/-! ### Calls -/

namespace Call

/-- The node that a call is made before, if it is made before one. -/
def entered? : Call → Option Node
  | node .enter k n => some (.ofKind k n)
  | _ => none

/-- The node that a call is made after, if it is made after one. -/
def left? : Call → Option Node
  | node .leave k n => some (.ofKind k n)
  | _ => none

/-- The definition that a call passes by, if it does. -/
def passed? : Call → Option Definition
  | definition d => some d
  | _ => none

end Call

section Keeps
variable {σ : Type}

/-- A visitor gives back what it is called for. -/
structure Visitor.Keeps (v : Visitor σ) (table : FragmentTable) : Prop where
  node : ∀ phase k n s, ((v.node phase table k n).run s).1 = n
  definition : ∀ d s, ((v.definition table d).run s).1 = d

variable {v : Visitor σ} {table : FragmentTable} {items items' : List Item} {s s' : σ}
  {calls : List Call}

theorem Visitor.Keeps.changesLeaves (hv : v.Keeps table) : v.ChangesLeaves table (fun _ => id) where
  node phase k n s _ := hv.node phase k n s
  leaf k n s _ := by rw [hv.node, hv.node, id]
  definition := hv.definition

/-- **Each node is entered once and left once**, and all definitions that are not entered are passed by
in order. -/
theorem Walked.reaches (hv : v.Keeps table) (h : Walked v table items s calls items' s') :
    ∃ nodes, Node.Listed (items.filterMap Item.node?) nodes ∧
      (calls.filterMap Call.entered?).Perm nodes ∧ (calls.filterMap Call.left?).Perm nodes ∧
      calls.filterMap Call.passed? = items.flatMap Item.passes := by
  induction h with
  | nil => exact ⟨[], .nil, .nil, .nil, rfl⟩
  | @node k n n₁ n₂ n₃ _ _ _ _ s s₁ s₂ _ _ henter hinside hagrees hleave _ ihinside ihrest =>
    obtain rfl : n₁ = n := by rw [← hv.node .enter k n s, henter]
    obtain rfl : n₃ = n₂ := by rw [← hv.node .leave k n₂ s₂, hleave]
    obtain rfl : n₃ = n₁ := by
      have hkept := (Walked.node henter hinside hagrees hleave (.nil _)).eq_mapLeaves hv.changesLeaves
      simpa using hkept
    obtain ⟨inside, hlisted, hentered, hleft, hpassed⟩ := ihinside
    obtain ⟨after, hlisted', hentered', hleft', hpassed'⟩ := ihrest
    obtain ⟨inside', hreached, hperm⟩ := hlisted.perm (Node.perm_reached k n₃)
    refine ⟨_, .cons hreached hlisted', ?_, ?_, ?_⟩
    · simp only [List.filterMap_cons, List.filterMap_append, Call.entered?]
      exact ((hentered.trans hperm).append hentered').cons _
    · simp only [List.filterMap_cons, List.filterMap_append, Call.left?]
      exact List.perm_middle.trans (((hleft.trans hperm).append hleft').cons _)
    · simp only [List.filterMap_cons, List.filterMap_append, Call.passed?, hpassed, hpassed',
        NodeKind.flatMap_passes, List.flatMap_cons]
  | @passed d d₁ _ _ _ s _ _ hpass _ ih =>
    obtain ⟨nodes, hlisted, hentered, hleft, hpassed⟩ := ih
    exact ⟨nodes, hlisted, hentered, hleft, congrArg (d :: ·) hpassed⟩

end Keeps

end QueryDocs
