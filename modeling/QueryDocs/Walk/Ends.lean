import QueryDocs.Walk.Depth
import QueryDocs.Walk.Visitor

/-! # Walks that end

A walk goes no deeper than the document is nested if its visitor, called before the nodes inside a node,
gives this node back (`Walk.ends_document`). Such a visitor thus needs no limit (`Document.walk`). -/

namespace QueryDocs

/-- Called before the nodes inside a node, a visitor gives this node back. -/
def Visitor.Opens {σ : Type} (v : Visitor σ) (table : FragmentTable) : Prop :=
  ∀ k n s, k.isLeaf = false → ((v.node .enter table k n).run s).1 = n

namespace Walk

variable {σ : Type} {v : Visitor σ} {table : FragmentTable} {limit : Nat}

/-! ### Steps of a walk -/

/-- In every state a walk has a result. -/
def Ends {α : Type} (w : Walk σ α) : Prop := ∀ s, ∃ a s', w.run s = some (a, s')

section Steps
variable {α β : Type} {w : Walk σ α} {k : NodeKind} {n : k.Node}

theorem Ends.pure (a : α) : Ends (Pure.pure a : Walk σ α) := fun s => ⟨a, s, rfl⟩

theorem Ends.bind (h : Ends w) {f : α → Walk σ β} (hf : ∀ a, Ends (f a)) : Ends (w >>= f) := by
  intro s
  obtain ⟨a, s₁, ha⟩ := h s
  obtain ⟨b, s₂, hb⟩ := hf a s₁
  exact ⟨b, s₂, by rw [StateT.run_bind, ha]; exact hb⟩

theorem Ends.map (h : Ends w) (f : α → β) : Ends (f <$> w) := by
  intro s
  obtain ⟨a, s', ha⟩ := h s
  exact ⟨f a, s', by rw [StateT.run_map, ha]; rfl⟩

theorem ends_mapM {f : α → Walk σ β} {xs : List α} (h : ∀ x ∈ xs, Ends (f x)) : Ends (xs.mapM f) := by
  induction xs with
  | nil => exact .pure _
  | cons x xs ih =>
    obtain ⟨hx, hxs⟩ := List.forall_mem_cons.mp h
    rw [List.mapM_cons]
    exact hx.bind fun y => (ih hxs).bind fun ys => .pure _

theorem ends_optionMapM {f : α → Walk σ β} {x : Option α} (h : ∀ y ∈ x, Ends (f y)) :
    Ends (x.mapM f) := by
  cases x with
  | none => exact .pure _
  | some x => exact (h x rfl).map _

theorem ends_call (phase : Phase) (k : NodeKind) (n : k.Node) : Ends (call v table phase k n) :=
  fun _ => ⟨_, _, rfl⟩

theorem ends_leaf : Ends (leaf v table k n) :=
  (ends_call _ _ _).bind fun n => (Ends.pure n).bind fun _ => ends_call _ _ _

/-- Only the node itself has to be walked inside. -/
theorem ends_around (hv : v.Opens table) (hk : k.isLeaf = false) {inside : k.Node → Walk σ k.Node}
    (h : Ends (inside n)) : Ends (around v table k inside n) := by
  intro s
  have henter : (call v table .enter k n).run s =
      some (n, ((v.node .enter table k n).run s).2) :=
    congrArg some (Prod.ext (hv k n s hk) rfl)
  obtain ⟨a, s', ha⟩ := (h.bind fun n => ends_call .leave k n) ((v.node .enter table k n).run s).2
  exact ⟨a, s', by rw [around, StateT.run_bind, henter]; exact ha⟩

end Steps

/-! ### Values and types -/

theorem ends_name (n : Name) : Ends (name v table n) := ends_leaf

variable (hv : v.Opens table)
include hv

theorem ends_variableUse (x : Variable) : Ends (variableUse v table x) :=
  ends_around hv rfl <| (ends_name x.name).bind fun _ => .pure _

theorem ends_namedType (t : NamedType) : Ends (namedType v table t) :=
  ends_around hv rfl <| (ends_name t.name).bind fun _ => .pure _

theorem ends_typeRef (limit : Nat) (t : TypeRef) (h : t.depth ≤ limit) :
    Ends (typeRef v table limit t) := by
  induction limit generalizing t with
  | zero => rcases t with t | ⟨t, s⟩ | ⟨t, s⟩ <;> simp [TypeRef.depth] at h
  | succ limit ih =>
    rcases t with t | ⟨t, s⟩ | ⟨t, s⟩
    · exact (ends_namedType hv t).map _
    · have hitem : t.depth ≤ limit := Nat.le_of_succ_le_succ h
      exact (ends_around hv rfl <| (ih t hitem).bind fun _ => .pure _).map _
    · have hnullable : t.depth ≤ limit := Nat.le_of_succ_le_succ h
      exact (ends_around hv rfl <| (ih t hnullable).bind fun _ => .pure _).map _

theorem ends_value (limit : Nat) (x : Value) (h : x.depth ≤ limit) :
    Ends (value v table limit x) := by
  induction limit generalizing x with
  | zero => rcases x with _ | _ | _ | _ | _ | _ | _ | ⟨vs, s⟩ | ⟨fs, s⟩ <;> simp [Value.depth] at h
  | succ limit ih =>
    cases x with
    | «variable» x => exact (ends_variableUse hv x).map _
    | int x => exact ends_leaf.map _
    | float x => exact ends_leaf.map _
    | string x => exact ends_leaf.map _
    | boolean x => exact ends_leaf.map _
    | null x => exact ends_leaf.map _
    | enum x => exact ends_leaf.map _
    | list x =>
      obtain ⟨vs, s⟩ := x
      rw [Value.depth, Value.depths_eq] at h
      have hvalues : ∀ y ∈ vs, y.depth ≤ limit := fun y hy =>
        Nat.le_trans (le_greatest hy) (Nat.le_of_succ_le_succ h)
      exact (ends_around hv rfl <| (ends_mapM fun y hy => ih y (hvalues y hy)).bind
        fun _ => .pure _).map _
    | object x =>
      obtain ⟨fs, s⟩ := x
      rw [Value.depth, ObjectField.depths_eq] at h
      have hfields : ∀ f ∈ fs, f.value.depth ≤ limit := fun f hf =>
        Nat.le_trans (le_greatest (f := fun x => x.value.depth) hf) (Nat.le_of_succ_le_succ h)
      refine (ends_around hv rfl <| (ends_mapM fun f hf => ?_).bind fun _ => .pure _).map _
      exact ends_around hv rfl <| (ends_name f.name).bind fun _ =>
        (ih f.value (hfields f hf)).bind fun _ => .pure _

/-! ### Selections -/

theorem ends_arguments (as : List Argument) (h : Argument.depths as ≤ limit) :
    Ends (as.mapM (argument v table limit)) := by
  refine ends_mapM fun a ha => ?_
  have hvalue : a.value.depth ≤ limit := Nat.le_trans (le_greatest (f := fun a => a.value.depth) ha) h
  exact ends_around hv rfl <| (ends_name a.name).bind fun _ =>
    (ends_value hv limit a.value hvalue).bind fun _ => .pure _

theorem ends_directives (ds : List Directive) (h : Directive.depths ds ≤ limit) :
    Ends (ds.mapM (directive v table limit)) := by
  refine ends_mapM fun d hd => ?_
  have harguments : Argument.depths d.arguments ≤ limit :=
    Nat.le_trans (le_greatest (f := fun d => Argument.depths d.arguments) hd) h
  exact ends_around hv rfl <| (ends_name d.name).bind fun _ =>
    (ends_arguments hv d.arguments harguments).bind fun _ => .pure _

theorem ends_spread (f : FragmentSpread) (h : Directive.depths f.directives ≤ limit) :
    Ends (spread v table limit f) :=
  ends_around hv rfl <| (ends_name f.name).bind fun _ =>
    (ends_directives hv f.directives h).bind fun _ => .pure _

section Set
variable {set : SelectionSet → Walk σ SelectionSet} (hset : ∀ x, x.depth ≤ limit → Ends (set x))
include hset

theorem ends_field (f : FieldSelection) (h : f.depth ≤ limit) : Ends (field v table limit set f) := by
  obtain ⟨aliasName, fieldName, as, ds, x, s⟩ := f
  have hparts : Argument.depths as ≤ limit ∧ Directive.depths ds ≤ limit ∧ ∀ y ∈ x, y.depth ≤ limit := by
    cases x with
    | none =>
      rw [FieldSelection.depth] at h
      exact ⟨by omega, by omega, nofun⟩
    | some x =>
      rw [FieldSelection.depth] at h
      refine ⟨by omega, by omega, ?_⟩
      rintro y ⟨⟩
      omega
  obtain ⟨has, hds, hx⟩ := hparts
  refine ends_around hv rfl ?_
  refine (ends_name fieldName).bind fun fieldName => ?_
  refine (ends_optionMapM fun n _ => ends_name n).bind fun aliasName => ?_
  refine (ends_arguments hv as has).bind fun arguments => ?_
  refine (ends_optionMapM fun y hy => hset y (hx y hy)).bind fun selectionSet => ?_
  exact (ends_directives hv ds hds).bind fun _ => .pure _

theorem ends_inline (f : InlineFragment) (h : f.depth ≤ limit) : Ends (inline v table limit set f) := by
  obtain ⟨condition, ds, x, s⟩ := f
  rw [InlineFragment.depth] at h
  refine ends_around hv rfl ?_
  refine (ends_optionMapM fun t _ => ends_namedType hv t).bind fun typeCondition => ?_
  refine (ends_directives hv ds (by omega)).bind fun directives => ?_
  exact (hset x (by omega)).bind fun _ => .pure _

theorem ends_selection (x : Selection) (h : x.depth ≤ limit) :
    Ends (selection v table limit set x) := by
  cases x with
  | field f => exact (ends_field hv hset f h).map _
  | spread f => exact (ends_spread hv f h).map _
  | inline f => exact (ends_inline hv hset f h).map _

end Set

theorem ends_selectionSet (limit : Nat) (x : SelectionSet) (h : x.depth ≤ limit) :
    Ends (selectionSet v table limit x) := by
  induction limit generalizing x with
  | zero =>
    obtain ⟨xs, s⟩ := x
    simp [SelectionSet.depth] at h
  | succ limit ih =>
    obtain ⟨xs, s⟩ := x
    rw [SelectionSet.depth, Selection.depths_eq] at h
    have hselections : ∀ y ∈ xs, y.depth ≤ limit := fun y hy =>
      Nat.le_trans (le_greatest hy) (Nat.le_of_succ_le_succ h)
    exact ends_around hv rfl <|
      (ends_mapM fun y hy => ends_selection hv ih y (hselections y hy)).bind fun _ => .pure _

/-! ### Definitions -/

theorem ends_variableDefinition (d : VariableDefinition) (h : d.depth ≤ limit) :
    Ends (variableDefinition v table limit d) := by
  rw [VariableDefinition.depth] at h
  have hdefault : ∀ x ∈ d.default, x.depth ≤ limit := fun x hx => by
    have := le_greatest (f := Value.depth) (Option.mem_toList.mpr hx)
    omega
  refine ends_around hv rfl ?_
  refine (ends_variableUse hv d.declared).bind fun declared => ?_
  refine (ends_typeRef hv limit d.type (by omega)).bind fun type => ?_
  refine (ends_optionMapM fun x hx => ends_value hv limit x (hdefault x hx)).bind fun default => ?_
  exact (ends_directives hv d.directives (by omega)).bind fun _ => .pure _

theorem ends_operation (d : OperationDefinition) (h : d.depth ≤ limit) :
    Ends (operation v table limit d) := by
  rw [OperationDefinition.depth] at h
  have hvariables : ∀ x ∈ d.variableDefinitions, x.depth ≤ limit := fun x hx => by
    have := le_greatest (f := VariableDefinition.depth) hx
    omega
  refine ends_around hv rfl ?_
  refine (ends_optionMapM fun n _ => ends_name n).bind fun name => ?_
  refine (ends_mapM fun x hx => ends_variableDefinition hv x (hvariables x hx)).bind fun declared => ?_
  refine (ends_directives hv d.directives (by omega)).bind fun directives => ?_
  exact (ends_selectionSet hv limit d.selectionSet (by omega)).bind fun _ => .pure _

theorem ends_fragment (d : FragmentDefinition) (h : d.depth ≤ limit) :
    Ends (fragment v table limit d) := by
  rw [FragmentDefinition.depth] at h
  refine ends_around hv rfl ?_
  refine (ends_namedType hv d.typeCondition).bind fun typeCondition => ?_
  refine (ends_name d.name).bind fun name => ?_
  refine (ends_directives hv d.directives (by omega)).bind fun directives => ?_
  exact (ends_selectionSet hv limit d.selectionSet (by omega)).bind fun _ => .pure _

theorem ends_definition (d : Definition) (h : d.depth ≤ limit) : Ends (definition v table limit d) := by
  cases d with
  | operation d => exact (ends_operation hv d h).map _
  | fragment d => exact (ends_fragment hv d h).map _
  | _ => exact fun s => ⟨_, _, rfl⟩

/-- **A walk goes no deeper than the document is nested.** -/
theorem ends_document (d : Document) (h : d.depth ≤ limit) : Ends (document v table limit d) :=
  ends_around hv rfl <| (ends_mapM fun x hx => ends_definition hv x (Nat.le_trans (le_greatest hx) h)).bind
    fun _ => .pure _

end Walk

/-! ### Walks without a limit -/

section Visit
variable {σ : Type} {v : Visitor σ} {table : FragmentTable} {limit : Nat} {s : σ}

theorem Document.run_visit {d : Document} (h : d.fragmentTable = .ok table) :
    (d.visit v limit).run.run s =
      ((Walk.document v table limit d).run s).map fun p => (.ok p.1, p.2) := by
  rw [visit, h]
  exact StateT.run_map (m := Option) Except.ok (Walk.document v table limit d) s

theorem Document.isSome_visit (d : Document) (hv : ∀ table, v.Opens table) :
    ((d.visit v d.depth).run.run s).isSome = true := by
  cases htable : d.fragmentTable with
  | error e =>
    rw [visit, htable]
    rfl
  | ok table =>
    obtain ⟨d', s', h⟩ := Walk.ends_document (hv table) d (Nat.le_refl _) s
    rw [run_visit htable, h]
    rfl

/-- What the walk of a document comes to, for a visitor that gives back each node for which it is called
before the nodes inside: there is no limit to how deep nodes may be nested. -/
def Document.walk (d : Document) (v : Visitor σ) (hv : ∀ table, v.Opens table) (s : σ) :
    Except FragmentError Document × σ :=
  ((d.visit v d.depth).run.run s).get (d.isSome_visit hv)

end Visit

end QueryDocs
