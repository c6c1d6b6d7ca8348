import QueryDocs.Proofs.Walk.Walked

/-! # The calls that a walk makes

Where a walk ends, its visitor was called as `Walked` says: a lemma for each kind of node, in which the
walk inside a node goes over its places one after the other (`walks_document`). -/

namespace QueryDocs.Walk

open NodeKind Item

variable {σ : Type} {v : Visitor σ} {table : FragmentTable} {limit : Nat}

/-! ### Steps of a walk -/

section Steps
variable {α β : Type} {x : Walk σ α} {s s' : σ} {b : β}

theorem exists_of_run_bind {f : α → Walk σ β} (h : (x >>= f).run s = some (b, s')) :
    ∃ a s₁, x.run s = some (a, s₁) ∧ (f a).run s₁ = some (b, s') := by
  rw [StateT.run_bind] at h
  obtain ⟨⟨a, s₁⟩, ha, hb⟩ := Option.bind_eq_some_iff.mp h
  exact ⟨a, s₁, ha, hb⟩

theorem exists_of_run_map {f : α → β} (h : (f <$> x).run s = some (b, s')) :
    ∃ a, x.run s = some (a, s') ∧ f a = b := by
  rw [StateT.run_map] at h
  obtain ⟨⟨a, s₁⟩, ha, hb⟩ := Option.map_eq_some_iff.mp h
  cases hb
  exact ⟨a, ha, rfl⟩

end Steps

/-! ### Walks of items -/

/-- Where a walk over values of a type ends, its visitor was called for the item of the value. -/
def Walks {α : Type} (v : Visitor σ) (table : FragmentTable) (item : α → Item) (w : α → Walk σ α) :
    Prop :=
  ∀ ⦃a s a' s'⦄, (w a).run s = some (a', s') → ∃ calls, Walked v table [item a] s calls [item a'] s'

/-- Places are walked one after the other. -/
def WalkedParts (v : Visitor σ) (table : FragmentTable) (parts : List (List Item)) (s : σ)
    (calls : List Call) (parts' : List (List Item)) (s' : σ) : Prop :=
  Walked v table parts.flatten s calls parts'.flatten s' ∧
    parts.map List.length = parts'.map List.length

section Items
variable {α β : Type} {item : α → Item} {w : α → Walk σ α} {s s' s₁ : σ} {calls calls' : List Call}
  {items items' : List Item} {parts parts' : List (List Item)} {k : NodeKind} {n n' : k.Node}

theorem WalkedParts.nil (s : σ) : WalkedParts v table [] s [] [] s := ⟨.nil s, rfl⟩

theorem WalkedParts.cons (h : Walked v table items s calls items' s')
    (hparts : WalkedParts v table parts s' calls' parts' s₁) :
    WalkedParts v table (items :: parts) s (calls ++ calls') (items' :: parts') s₁ :=
  ⟨h.append hparts.1, congrArg₂ List.cons h.length_eq hparts.2⟩

/-- What is left of a node inside which places are walked. -/
theorem WalkedParts.agrees (h : WalkedParts v table (k.parts n) s calls (k.parts n') s')
    (hspan : k.span n = k.span n') (hleaf : k.isLeaf = false)
    (hoperation : k.operation? n = k.operation? n') :
    ∃ calls, Walked v table (k.parts n).flatten s calls (k.parts n').flatten s' ∧ k.Agrees n n' :=
  ⟨calls, h.1, hspan, fun hk => absurd hk (by simp [hleaf]), hoperation, h.2⟩

/-- **The calls before and after a node** stand around those for the items inside it. -/
theorem walks_around {inside : k.Node → Walk σ k.Node}
    (h : ∀ n s n' s', (inside n).run s = some (n', s') → ∃ calls,
      Walked v table (k.parts n).flatten s calls (k.parts n').flatten s' ∧ k.Agrees n n') :
    Walks v table (.node k) (around v table k inside) := by
  intro n s n₃ s₃ hrun
  obtain ⟨n₁, s₁, henter, hrun⟩ := exists_of_run_bind hrun
  obtain ⟨n₂, s₂, hinside, hleave⟩ := exists_of_run_bind hrun
  obtain ⟨calls, hcalls, hagrees⟩ := h n₁ s₁ n₂ s₂ hinside
  exact ⟨_, .node (Option.some.inj henter) hcalls hagrees (Option.some.inj hleave) (.nil _)⟩

theorem walks_leaf (hk : k.parts = fun _ => []) :
    Walks v table (.node k) (leaf v table k) :=
  walks_around fun n s n' s' hrun => by
    cases hrun
    exact ⟨[], by rw [hk]; exact .nil _, rfl, fun _ => rfl, rfl, rfl⟩

theorem Walks.mapM (h : Walks v table item w) {xs xs' : List α}
    (hrun : (xs.mapM w).run s = some (xs', s')) :
    ∃ calls, Walked v table (xs.map item) s calls (xs'.map item) s' := by
  induction xs generalizing s xs' with
  | nil =>
    cases hrun
    exact ⟨[], .nil _⟩
  | cons x xs ih =>
    rw [List.mapM_cons] at hrun
    obtain ⟨y, s₁, hy, hrun⟩ := exists_of_run_bind hrun
    obtain ⟨ys, s₂, hys, hrun⟩ := exists_of_run_bind hrun
    cases hrun
    obtain ⟨calls, hcalls⟩ := h hy
    obtain ⟨calls', hcalls'⟩ := ih hys
    exact ⟨_, hcalls.append hcalls'⟩

theorem Walks.optionMapM (h : Walks v table item w) {x x' : Option α}
    (hrun : (x.mapM w).run s = some (x', s')) :
    ∃ calls, Walked v table (x.toList.map item) s calls (x'.toList.map item) s' := by
  cases x with
  | none =>
    cases hrun
    exact ⟨[], .nil _⟩
  | some x =>
    obtain ⟨y, hy, rfl⟩ := exists_of_run_map hrun
    exact h hy

/-- A walk of one kind of values is one of all values it belongs to. -/
theorem Walks.wrap (h : Walks v table item w) (wrap : α → β) {item' : β → Item}
    (hitem : ∀ a, item' (wrap a) = item a) {a : α} {b : β} (hrun : (wrap <$> w a).run s = some (b, s')) :
    ∃ calls, Walked v table [item' (wrap a)] s calls [item' b] s' := by
  obtain ⟨a', ha', rfl⟩ := exists_of_run_map hrun
  obtain ⟨calls, hcalls⟩ := h ha'
  exact ⟨calls, by rwa [hitem, hitem]⟩

end Items

/-! ### Values and types -/

theorem walks_name : Walks v table (.node .name) (name v table) := walks_leaf rfl

theorem walks_variableUse : Walks v table (.node .variable) (variableUse v table) :=
  walks_around fun x s x' s' hrun => by
    obtain ⟨name, s₁, hname, hrun⟩ := exists_of_run_bind hrun
    cases hrun
    obtain ⟨_, hname⟩ := walks_name hname
    exact WalkedParts.agrees (.cons hname (.nil _)) rfl rfl rfl

theorem walks_namedType : Walks v table (.node .namedType) (namedType v table) :=
  walks_around fun t s t' s' hrun => by
    obtain ⟨name, s₁, hname, hrun⟩ := exists_of_run_bind hrun
    cases hrun
    obtain ⟨_, hname⟩ := walks_name hname
    exact WalkedParts.agrees (.cons hname (.nil _)) rfl rfl rfl

theorem walks_typeRef (limit : Nat) : Walks v table ofType (typeRef v table limit) := by
  induction limit with
  | zero =>
    intro t s t' s' hrun
    cases hrun
  | succ limit ih =>
    intro t s t' s' hrun
    cases t with
    | named t => exact Walks.wrap walks_namedType TypeRef.named (fun _ => rfl) hrun
    | list t =>
      refine Walks.wrap (walks_around (k := .listType) fun t s t' s' hrun => ?_) TypeRef.list
        (fun _ => rfl) hrun
      obtain ⟨item, s₁, hitem, hrun⟩ := exists_of_run_bind hrun
      cases hrun
      obtain ⟨_, hitem⟩ := ih hitem
      exact WalkedParts.agrees (.cons hitem (.nil _)) rfl rfl rfl
    | nonNull t =>
      refine Walks.wrap (walks_around (k := .nonNullType) fun t s t' s' hrun => ?_) TypeRef.nonNull
        (fun _ => rfl) hrun
      obtain ⟨nullable, s₁, hnullable, hrun⟩ := exists_of_run_bind hrun
      cases hrun
      obtain ⟨_, hnullable⟩ := ih hnullable
      exact WalkedParts.agrees (.cons hnullable (.nil _)) rfl rfl rfl

theorem walks_objectField {w : Value → Walk σ Value} (hw : Walks v table ofValue w) :
    Walks v table (.node .objectField) (around v table .objectField fun f : ObjectField => do
      let name ← name v table f.name
      let value ← w f.value
      return { f with name, value }) :=
  walks_around (k := .objectField) fun f s f' s' hrun => by
    obtain ⟨name, s₁, hname, hrun⟩ := exists_of_run_bind hrun
    obtain ⟨value, s₂, hvalue, hrun⟩ := exists_of_run_bind hrun
    cases hrun
    obtain ⟨_, hname⟩ := walks_name hname
    obtain ⟨_, hvalue⟩ := hw hvalue
    exact WalkedParts.agrees (.cons hname (.cons hvalue (.nil _))) rfl rfl rfl

theorem walks_value (limit : Nat) : Walks v table ofValue (value v table limit) := by
  induction limit with
  | zero =>
    intro x s x' s' hrun
    cases hrun
  | succ limit ih =>
    intro x s x' s' hrun
    cases x with
    | «variable» x => exact Walks.wrap walks_variableUse Value.variable (fun _ => rfl) hrun
    | int x => exact Walks.wrap (walks_leaf (k := .int) rfl) Value.int (fun _ => rfl) hrun
    | float x => exact Walks.wrap (walks_leaf (k := .float) rfl) Value.float (fun _ => rfl) hrun
    | string x => exact Walks.wrap (walks_leaf (k := .string) rfl) Value.string (fun _ => rfl) hrun
    | boolean x => exact Walks.wrap (walks_leaf (k := .boolean) rfl) Value.boolean (fun _ => rfl) hrun
    | null x => exact Walks.wrap (walks_leaf (k := .null) rfl) Value.null (fun _ => rfl) hrun
    | enum x => exact Walks.wrap (walks_leaf (k := .enum) rfl) Value.enum (fun _ => rfl) hrun
    | list x =>
      refine Walks.wrap (walks_around (k := .list) fun x s x' s' hrun => ?_) Value.list
        (fun _ => rfl) hrun
      obtain ⟨values, s₁, hvalues, hrun⟩ := exists_of_run_bind hrun
      cases hrun
      obtain ⟨_, hvalues⟩ := ih.mapM hvalues
      exact WalkedParts.agrees (.cons hvalues (.nil _)) rfl rfl rfl
    | object x =>
      refine Walks.wrap (walks_around (k := .object) fun x s x' s' hrun => ?_) Value.object
        (fun _ => rfl) hrun
      obtain ⟨fields, s₁, hfields, hrun⟩ := exists_of_run_bind hrun
      cases hrun
      obtain ⟨_, hfields⟩ := (walks_objectField ih).mapM hfields
      exact WalkedParts.agrees (.cons hfields (.nil _)) rfl rfl rfl

/-! ### Selections -/

theorem walks_argument : Walks v table (.node .argument) (argument v table limit) :=
  walks_around fun a s a' s' hrun => by
    obtain ⟨name, s₁, hname, hrun⟩ := exists_of_run_bind hrun
    obtain ⟨value, s₂, hvalue, hrun⟩ := exists_of_run_bind hrun
    cases hrun
    obtain ⟨_, hname⟩ := walks_name hname
    obtain ⟨_, hvalue⟩ := walks_value limit hvalue
    exact WalkedParts.agrees (.cons hname (.cons hvalue (.nil _))) rfl rfl rfl

theorem walks_directive : Walks v table (.node .directive) (directive v table limit) :=
  walks_around fun d s d' s' hrun => by
    obtain ⟨name, s₁, hname, hrun⟩ := exists_of_run_bind hrun
    obtain ⟨arguments, s₂, harguments, hrun⟩ := exists_of_run_bind hrun
    cases hrun
    obtain ⟨_, hname⟩ := walks_name hname
    obtain ⟨_, harguments⟩ := Walks.mapM walks_argument harguments
    exact WalkedParts.agrees (.cons hname (.cons harguments (.nil _))) rfl rfl rfl

theorem walks_spread : Walks v table (.node .spread) (spread v table limit) :=
  walks_around fun f s f' s' hrun => by
    obtain ⟨name, s₁, hname, hrun⟩ := exists_of_run_bind hrun
    obtain ⟨directives, s₂, hdirectives, hrun⟩ := exists_of_run_bind hrun
    cases hrun
    obtain ⟨_, hname⟩ := walks_name hname
    obtain ⟨_, hdirectives⟩ := Walks.mapM walks_directive hdirectives
    exact WalkedParts.agrees (.cons hname (.cons hdirectives (.nil _))) rfl rfl rfl

section Set
variable {set : SelectionSet → Walk σ SelectionSet} (hset : Walks v table (.node .selectionSet) set)
include hset

theorem walks_field : Walks v table (.node .field) (field v table limit set) :=
  walks_around fun f s f' s' hrun => by
    obtain ⟨fieldName, s₁, hname, hrun⟩ := exists_of_run_bind hrun
    obtain ⟨aliasName, s₂, halias, hrun⟩ := exists_of_run_bind hrun
    obtain ⟨arguments, s₃, harguments, hrun⟩ := exists_of_run_bind hrun
    obtain ⟨selectionSet, s₄, hselectionSet, hrun⟩ := exists_of_run_bind hrun
    obtain ⟨directives, s₅, hdirectives, hrun⟩ := exists_of_run_bind hrun
    cases hrun
    obtain ⟨_, hname⟩ := walks_name hname
    obtain ⟨_, halias⟩ := Walks.optionMapM walks_name halias
    obtain ⟨_, harguments⟩ := Walks.mapM walks_argument harguments
    obtain ⟨_, hselectionSet⟩ := hset.optionMapM hselectionSet
    obtain ⟨_, hdirectives⟩ := Walks.mapM walks_directive hdirectives
    exact WalkedParts.agrees (.cons hname (.cons halias (.cons harguments (.cons hselectionSet
      (.cons hdirectives (.nil _)))))) rfl rfl rfl

theorem walks_inline : Walks v table (.node .inline) (inline v table limit set) :=
  walks_around fun f s f' s' hrun => by
    obtain ⟨typeCondition, s₁, hcondition, hrun⟩ := exists_of_run_bind hrun
    obtain ⟨directives, s₂, hdirectives, hrun⟩ := exists_of_run_bind hrun
    obtain ⟨selectionSet, s₃, hselectionSet, hrun⟩ := exists_of_run_bind hrun
    cases hrun
    obtain ⟨_, hcondition⟩ := Walks.optionMapM walks_namedType hcondition
    obtain ⟨_, hdirectives⟩ := Walks.mapM walks_directive hdirectives
    obtain ⟨_, hselectionSet⟩ := hset hselectionSet
    exact WalkedParts.agrees (.cons hcondition (.cons hdirectives (.cons hselectionSet (.nil _))))
      rfl rfl rfl

theorem walks_selection : Walks v table ofSelection (selection v table limit set) := by
  intro x s x' s' hrun
  cases x with
  | field f => exact (walks_field hset).wrap Selection.field (fun _ => rfl) hrun
  | spread f => exact Walks.wrap walks_spread Selection.spread (fun _ => rfl) hrun
  | inline f => exact (walks_inline hset).wrap Selection.inline (fun _ => rfl) hrun

end Set

theorem walks_selectionSet (limit : Nat) :
    Walks v table (.node .selectionSet) (selectionSet v table limit) := by
  induction limit with
  | zero =>
    intro x s x' s' hrun
    cases hrun
  | succ limit ih =>
    refine walks_around fun x s x' s' hrun => ?_
    obtain ⟨selections, s₁, hselections, hrun⟩ := exists_of_run_bind hrun
    cases hrun
    obtain ⟨_, hselections⟩ := (walks_selection ih).mapM hselections
    exact WalkedParts.agrees (.cons hselections (.nil _)) rfl rfl rfl

/-! ### Definitions -/

theorem walks_variableDefinition :
    Walks v table (.node .variableDefinition) (variableDefinition v table limit) :=
  walks_around fun d s d' s' hrun => by
    obtain ⟨declared, s₁, hdeclared, hrun⟩ := exists_of_run_bind hrun
    obtain ⟨type, s₂, htype, hrun⟩ := exists_of_run_bind hrun
    obtain ⟨default, s₃, hdefault, hrun⟩ := exists_of_run_bind hrun
    obtain ⟨directives, s₄, hdirectives, hrun⟩ := exists_of_run_bind hrun
    cases hrun
    obtain ⟨_, hdeclared⟩ := walks_variableUse hdeclared
    obtain ⟨_, htype⟩ := walks_typeRef limit htype
    obtain ⟨_, hdefault⟩ := (walks_value limit).optionMapM hdefault
    obtain ⟨_, hdirectives⟩ := Walks.mapM walks_directive hdirectives
    exact WalkedParts.agrees (.cons hdeclared (.cons htype (.cons hdefault
      (.cons hdirectives (.nil _))))) rfl rfl rfl

theorem walks_operation : Walks v table (.node .operation) (operation v table limit) :=
  walks_around fun d s d' s' hrun => by
    obtain ⟨name, s₁, hname, hrun⟩ := exists_of_run_bind hrun
    obtain ⟨variableDefinitions, s₂, hdefinitions, hrun⟩ := exists_of_run_bind hrun
    obtain ⟨directives, s₃, hdirectives, hrun⟩ := exists_of_run_bind hrun
    obtain ⟨selectionSet, s₄, hselectionSet, hrun⟩ := exists_of_run_bind hrun
    cases hrun
    obtain ⟨_, hname⟩ := Walks.optionMapM walks_name hname
    obtain ⟨_, hdefinitions⟩ := Walks.mapM walks_variableDefinition hdefinitions
    obtain ⟨_, hdirectives⟩ := Walks.mapM walks_directive hdirectives
    obtain ⟨_, hselectionSet⟩ := walks_selectionSet limit hselectionSet
    exact WalkedParts.agrees (.cons hname (.cons hdefinitions (.cons hdirectives
      (.cons hselectionSet (.nil _))))) rfl rfl rfl

theorem walks_fragment : Walks v table (.node .fragment) (fragment v table limit) :=
  walks_around fun d s d' s' hrun => by
    obtain ⟨typeCondition, s₁, hcondition, hrun⟩ := exists_of_run_bind hrun
    obtain ⟨name, s₂, hname, hrun⟩ := exists_of_run_bind hrun
    obtain ⟨directives, s₃, hdirectives, hrun⟩ := exists_of_run_bind hrun
    obtain ⟨selectionSet, s₄, hselectionSet, hrun⟩ := exists_of_run_bind hrun
    cases hrun
    obtain ⟨_, hcondition⟩ := walks_namedType hcondition
    obtain ⟨_, hname⟩ := walks_name hname
    obtain ⟨_, hdirectives⟩ := Walks.mapM walks_directive hdirectives
    obtain ⟨_, hselectionSet⟩ := walks_selectionSet limit hselectionSet
    exact WalkedParts.agrees (.cons hcondition (.cons hname (.cons hdirectives
      (.cons hselectionSet (.nil _))))) rfl rfl rfl

theorem walks_definition : Walks v table ofDefinition (definition v table limit) := by
  intro d s d' s' hrun
  cases d with
  | operation d => exact Walks.wrap walks_operation Definition.operation (fun _ => rfl) hrun
  | fragment d => exact Walks.wrap walks_fragment Definition.fragment (fun _ => rfl) hrun
  | _ => exact ⟨_, .passed (Option.some.inj hrun) (.nil _)⟩

/-- **A walk of a document makes the calls for its items**, well nested and in order. -/
theorem walks_document : Walks v table (.node .document) (document v table limit) :=
  walks_around fun d s d' s' hrun => by
    obtain ⟨definitions, s₁, hdefinitions, hrun⟩ := exists_of_run_bind hrun
    cases hrun
    obtain ⟨_, hdefinitions⟩ := Walks.mapM walks_definition hdefinitions
    exact WalkedParts.agrees (.cons hdefinitions (.nil _)) rfl rfl rfl

end QueryDocs.Walk
