import QueryDocs.Proofs.Document.Node
import QueryDocs.Proofs.Document.Shape

/-! # Shapes of nodes

The nodes inside a well-formed document are shaped as their place demands (`Node.Shaped.of_holds`):
one step goes from a node to its children, and a constant place has constant places alone inside. -/

namespace QueryDocs

/-! ### Constant values -/

mutual

/-- A value that is shaped as a constant is one. -/
theorem Value.shaped_true_iff :
    (v : Value) → (v.Shaped true ↔ v.Shaped false ∧ v.isConst = true)
  | .variable _ | .boolean _ | .null _ | .enum _ | .int _ | .float _ | .string _ => by
    simp [Value.Shaped, Value.isConst]
  | .list ⟨vs, _⟩ => by
    rw [Value.Shaped, Value.Shaped, Value.isConst]
    exact Value.allShaped_true_iff vs
  | .object ⟨fs, _⟩ => by
    rw [Value.Shaped, Value.Shaped, Value.isConst]
    exact ObjectField.allShaped_true_iff fs

theorem Value.allShaped_true_iff : (vs : List Value) →
    (Value.AllShaped true vs ↔ Value.AllShaped false vs ∧ Value.allConst vs = true)
  | [] => by simp [Value.AllShaped, Value.allConst]
  | v :: vs => by
    rw [Value.AllShaped, Value.AllShaped, Value.allConst, Value.shaped_true_iff v,
      Value.allShaped_true_iff vs, Bool.and_eq_true]
    exact and_and_and_comm

theorem ObjectField.allShaped_true_iff : (fs : List ObjectField) →
    (ObjectField.AllShaped true fs ↔ ObjectField.AllShaped false fs ∧ ObjectField.allConst fs = true)
  | [] => by simp [ObjectField.AllShaped, ObjectField.allConst]
  | ⟨_, v, _⟩ :: fs => by
    rw [ObjectField.AllShaped, ObjectField.AllShaped, ObjectField.allConst, Value.shaped_true_iff v,
      ObjectField.allShaped_true_iff fs, Bool.and_eq_true]
    exact and_and_and_comm

end

section Constant
variable {b : Bool}

theorem Value.Shaped.weaken {v : Value} (h : v.Shaped true) : v.Shaped b := by
  cases b with
  | true => exact h
  | false => exact (v.shaped_true_iff.mp h).1

theorem Value.Shaped.isConst {v : Value} (h : v.Shaped true) : v.isConst = true :=
  (v.shaped_true_iff.mp h).2

theorem Directive.Shaped.weaken {d : Directive} (h : d.Shaped true) : d.Shaped b :=
  fun a ha => (h a ha).weaken

end Constant

/-! ### Nodes -/

namespace Node

/-- The shape of a node, in a place for constants or in any place. Nodes that have variables inside
stand in no place for constants. -/
def Shaped (isConst : Bool) : Node → Prop
  | document d => isConst = false ∧ ∀ x ∈ d.definitions, x.Shaped
  | definition d => (isConst = true → d.isExecutable = false) ∧ d.Shaped
  | variableDefinition d => isConst = false ∧ d.Shaped
  | selectionSet x => isConst = false ∧ x.Shaped
  | selection x => isConst = false ∧ x.Shaped
  | rootOperationType d => d.Shaped
  | fieldDefinition d => d.Shaped
  | inputValue d => d.Shaped
  | enumValue d => d.Shaped
  | directive d => d.Shaped isConst
  | argument a => a.Shaped isConst
  | typeRef t => t.Shaped
  | value v => v.Shaped isConst
  | objectField f => f.value.Shaped isConst
  | name _ => True

section Children
variable {b : Bool} {n m : Node}

theorem shaped_ofDescription (v : Option StringValue) : ∀ m ∈ ofDescription v, m.Shaped b := by
  cases v <;> simp [ofDescription, Shaped, Value.Shaped]

theorem shaped_ofDefault {v : Option Value} (h : ∀ x ∈ v, x.Shaped true) :
    ∀ m ∈ ofDefault v, m.Shaped b := by
  cases v with
  | none => simp [ofDefault]
  | some v => simpa [ofDefault, Shaped] using (h v rfl).weaken

theorem shaped_directives {ds : List Directive} (h : ∀ d ∈ ds, d.Shaped true) :
    ∀ m ∈ ds.map directive, m.Shaped b :=
  List.forall_mem_map.mpr fun d hd => (h d hd).weaken

theorem shaped_named (ts : List NamedType) : ∀ m ∈ ts.map named, m.Shaped b :=
  List.forall_mem_map.mpr fun _ _ => trivial

theorem shaped_ofType {d : TypeDefinition} (h : d.Shaped) : ∀ m ∈ ofType d, m.Shaped b := by
  cases d with
  | scalar d =>
    simp only [ofType, List.forall_mem_append, List.forall_mem_cons]
    exact ⟨shaped_ofDescription _, trivial, shaped_directives h⟩
  | object d | interface d =>
    obtain ⟨-, hdirectives, hfields⟩ := h
    simp only [ofType, List.forall_mem_append, List.forall_mem_cons, List.forall_mem_map]
    exact ⟨⟨⟨shaped_ofDescription _, trivial, fun _ _ => trivial⟩,
      fun d hd => (hdirectives d hd).weaken⟩, hfields⟩
  | union d =>
    simp only [ofType, List.forall_mem_append, List.forall_mem_cons]
    exact ⟨⟨shaped_ofDescription _, trivial, shaped_directives h⟩, shaped_named _⟩
  | enum d | input d =>
    obtain ⟨hdirectives, hparts⟩ := h
    simp only [ofType, List.forall_mem_append, List.forall_mem_cons, List.forall_mem_map]
    exact ⟨⟨shaped_ofDescription _, trivial, fun d hd => (hdirectives d hd).weaken⟩, hparts⟩

theorem shaped_ofDefinition {d : Definition} (h : (definition d).Shaped b) :
    ∀ m ∈ ofDefinition d, m.Shaped b := by
  obtain ⟨hconst, h⟩ := h
  cases d with
  | operation d =>
    obtain rfl : b = false := by cases b with | false => rfl | true => cases hconst rfl
    obtain ⟨hvariables, hdirectives, hset⟩ := h
    simp only [ofDefinition, List.forall_mem_append, List.forall_mem_map, List.forall_mem_singleton]
    exact ⟨⟨⟨fun _ _ => trivial, fun v hv => ⟨rfl, hvariables v hv⟩⟩, hdirectives⟩, rfl, hset⟩
  | fragment d =>
    obtain rfl : b = false := by cases b with | false => rfl | true => cases hconst rfl
    obtain ⟨-, hdirectives, hset⟩ := h
    simp only [ofDefinition, List.forall_mem_append, List.forall_mem_cons, List.forall_mem_map]
    exact ⟨⟨trivial, trivial, hdirectives⟩, ⟨rfl, hset⟩, by simp⟩
  | schema d =>
    obtain ⟨hdirectives, -, htypes⟩ := h
    simp only [ofDefinition, List.forall_mem_append, List.forall_mem_map]
    exact ⟨⟨shaped_ofDescription _, fun d hd => (hdirectives d hd).weaken⟩, htypes⟩
  | type d => exact shaped_ofType h
  | directive d =>
    simp only [ofDefinition, List.forall_mem_append, List.forall_mem_cons, List.forall_mem_map]
    exact ⟨shaped_ofDescription _, trivial, h.1⟩
  | extension d => exact List.forall_mem_singleton.mpr ⟨fun _ => rfl, h.2⟩

theorem shaped_ofSelection {x : Selection} (h : x.Shaped) : ∀ m ∈ ofSelection x, m.Shaped false := by
  cases x with
  | field f =>
    obtain ⟨a, n, as, ds, x, s⟩ := f
    obtain ⟨harguments, hdirectives, hset⟩ := FieldSelection.shaped_mk.mp h
    simp only [ofSelection, List.forall_mem_append, List.forall_mem_cons, List.forall_mem_map]
    refine ⟨⟨⟨fun _ _ => trivial, trivial, harguments⟩, hdirectives⟩, fun x hx => ⟨rfl, hset x ?_⟩⟩
    simpa using hx
  | spread f =>
    simp only [ofSelection, List.forall_mem_cons, List.forall_mem_map]
    exact ⟨trivial, h.2⟩
  | inline f =>
    obtain ⟨t, ds, x, s⟩ := f
    obtain ⟨hdirectives, hset⟩ := h
    simp only [ofSelection, List.forall_mem_append, List.forall_mem_map, List.forall_mem_singleton]
    exact ⟨⟨fun _ _ => trivial, hdirectives⟩, rfl, hset⟩

theorem shaped_ofValue {v : Value} (h : v.Shaped b) : ∀ m ∈ ofValue v, m.Shaped b := by
  cases v with
  | «variable» v => exact List.forall_mem_singleton.mpr trivial
  | list v =>
    obtain ⟨vs, s⟩ := v
    exact List.forall_mem_map.mpr (Value.shaped_list.mp h)
  | object v =>
    obtain ⟨fs, s⟩ := v
    exact List.forall_mem_map.mpr (Value.shaped_object.mp h)
  | _ => simp [ofValue]

/-- **The children of a node are shaped if the node is.** -/
theorem Shaped.child (h : n.Shaped b) : ∀ m ∈ n.children, m.Shaped b := by
  cases n with
  | document d =>
    obtain ⟨rfl, h⟩ := h
    exact List.forall_mem_map.mpr fun x hx => ⟨nofun, h x hx⟩
  | definition d => exact shaped_ofDefinition h
  | variableDefinition d =>
    obtain ⟨rfl, htype, hdefault, hdirectives⟩ := h
    simp only [children, List.forall_mem_append, List.forall_mem_cons, List.forall_mem_map]
    exact ⟨⟨rfl, htype, shaped_ofDefault hdefault⟩, fun d hd => (hdirectives d hd).weaken⟩
  | selectionSet x =>
    obtain ⟨xs, s⟩ := x
    obtain ⟨rfl, h⟩ := h
    obtain ⟨-, h⟩ := SelectionSet.shaped_mk.mp h
    exact List.forall_mem_map.mpr fun x hx => ⟨rfl, h x hx⟩
  | selection x =>
    obtain ⟨rfl, h⟩ := h
    exact shaped_ofSelection h
  | rootOperationType d =>
    simp only [children, List.forall_mem_cons]
    exact ⟨trivial, trivial, by simp⟩
  | fieldDefinition d =>
    obtain ⟨harguments, htype, hdirectives⟩ := h
    simp only [children, List.forall_mem_append, List.forall_mem_cons, List.forall_mem_map]
    exact ⟨⟨shaped_ofDescription _, trivial, harguments⟩, htype, fun d hd => (hdirectives d hd).weaken⟩
  | inputValue d =>
    obtain ⟨htype, hdefault, hdirectives⟩ := h
    simp only [children, List.forall_mem_append, List.forall_mem_cons, List.forall_mem_map]
    exact ⟨⟨shaped_ofDescription _, trivial, htype, shaped_ofDefault hdefault⟩,
      fun d hd => (hdirectives d hd).weaken⟩
  | enumValue d =>
    simp only [children, List.forall_mem_append, List.forall_mem_cons, List.forall_mem_map]
    exact ⟨shaped_ofDescription _, trivial, fun d hd => (h.2 d hd).weaken⟩
  | directive d =>
    simp only [children, List.forall_mem_cons, List.forall_mem_map]
    exact ⟨trivial, h⟩
  | argument a =>
    simp only [children, List.forall_mem_cons]
    exact ⟨trivial, h, by simp⟩
  | typeRef t =>
    match t, h with
    | .named t, _ => exact List.forall_mem_singleton.mpr trivial
    | .list ⟨t, _⟩, h => exact List.forall_mem_singleton.mpr h
    | .nonNull ⟨.named t, _⟩, _ => exact List.forall_mem_singleton.mpr trivial
    | .nonNull ⟨.list ⟨t, _⟩, _⟩, h => exact List.forall_mem_singleton.mpr h
  | value v => exact shaped_ofValue h
  | objectField f =>
    simp only [children, List.forall_mem_cons]
    exact ⟨trivial, h, by simp⟩
  | name n => simp [children]

/-- **A node inside a shaped node is shaped.** -/
theorem Shaped.of_holds (h : n.Shaped b) (hm : n.Holds m) : m.Shaped b := by
  induction hm with
  | refl => exact h
  | tail _ hm ih => exact ih.child _ hm

end Children

end Node

end QueryDocs
