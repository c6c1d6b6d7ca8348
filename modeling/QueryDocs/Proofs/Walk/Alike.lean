import Mathlib.Data.Option.Basic
import QueryDocs.Walk.Visitor

/-! # Visitors that act alike

Two visitors with states of their own act alike if, called in related states, they give the same node
back and stay related. Their walks of a document then fail together, or end with the same document
(`alike_document`). A visitor that notes its calls acts like the visitor itself. -/

namespace QueryDocs

variable {σ τ : Type} {r : σ → τ → Prop} {v : Visitor σ} {v' : Visitor τ} {table : FragmentTable}

/-- In related states the calls of two visitors give the same, and related states again. -/
structure Visitor.Alike (r : σ → τ → Prop) (v : Visitor σ) (v' : Visitor τ) (table : FragmentTable) :
    Prop where
  node : ∀ phase k n s t, r s t →
    ((v.node phase table k n).run s).1 = ((v'.node phase table k n).run t).1 ∧
      r ((v.node phase table k n).run s).2 ((v'.node phase table k n).run t).2
  definition : ∀ d s t, r s t →
    ((v.definition table d).run s).1 = ((v'.definition table d).run t).1 ∧
      r ((v.definition table d).run s).2 ((v'.definition table d).run t).2

/-- Noting the calls changes nothing else. -/
theorem Visitor.alike_recorded (v : Visitor σ) (table : FragmentTable) :
    Visitor.Alike (fun s t => s = t.1) v v.recorded table where
  node _ _ _ _ _ h := ⟨by rw [h]; rfl, by rw [h]; rfl⟩
  definition _ _ _ h := ⟨by rw [h]; rfl, by rw [h]; rfl⟩

namespace Walk

/-- In related states two walks both fail, or both end with the same, in related states again. -/
def Alike {α : Type} (r : σ → τ → Prop) (w : Walk σ α) (w' : Walk τ α) : Prop :=
  ∀ s t, r s t → Option.Rel (fun p q => p.1 = q.1 ∧ r p.2 q.2) (w.run s) (w'.run t)

/-! ### Steps of a walk -/

section Steps
variable {α β : Type} {w : Walk σ α} {w' : Walk τ α} {limit : Nat}

theorem Alike.pure (a : α) : Alike r (Pure.pure a) (Pure.pure a) := fun _ _ h => .some ⟨rfl, h⟩

theorem Alike.bind (h : Alike r w w') {f : α → Walk σ β} {f' : α → Walk τ β}
    (hf : ∀ a, Alike r (f a) (f' a)) : Alike r (w >>= f) (w' >>= f') := by
  intro s t hst
  rw [StateT.run_bind, StateT.run_bind]
  cases hs : w.run s <;> cases ht : w'.run t
  · exact .none
  · cases hs ▸ ht ▸ h s t hst
  · cases hs ▸ ht ▸ h s t hst
  · next p q =>
    cases hs ▸ ht ▸ h s t hst with
    | some hpq =>
      obtain ⟨a, s'⟩ := p
      obtain ⟨b, t'⟩ := q
      obtain ⟨rfl, hst'⟩ := hpq
      exact hf a s' t' hst'

theorem Alike.map (h : Alike r w w') (f : α → β) : Alike r (f <$> w) (f <$> w') := by
  rw [map_eq_pure_bind, map_eq_pure_bind]
  exact h.bind fun a => .pure (f a)

theorem alike_failure : Alike r (failure : Walk σ α) (failure : Walk τ α) := fun _ _ _ => .none

theorem alike_mapM {f : α → Walk σ β} {f' : α → Walk τ β} (h : ∀ a, Alike r (f a) (f' a))
    (xs : List α) : Alike r (xs.mapM f) (xs.mapM f') := by
  induction xs with
  | nil => exact .pure _
  | cons x xs ih =>
    rw [List.mapM_cons, List.mapM_cons]
    exact (h x).bind fun y => ih.bind fun ys => .pure _

theorem alike_optionMapM {f : α → Walk σ β} {f' : α → Walk τ β} (h : ∀ a, Alike r (f a) (f' a))
    (x : Option α) : Alike r (x.mapM f) (x.mapM f') := by
  cases x with
  | none => exact .pure _
  | some x => exact (h x).map _

end Steps

variable (hv : Visitor.Alike r v v' table) {limit : Nat}
include hv

theorem alike_call (phase : Phase) (k : NodeKind) (n : k.Node) :
    Alike r (call v table phase k n) (call v' table phase k n) :=
  fun s t hst => .some (hv.node phase k n s t hst)

theorem alike_around (k : NodeKind) {inside : k.Node → Walk σ k.Node}
    {inside' : k.Node → Walk τ k.Node} (h : ∀ n, Alike r (inside n) (inside' n)) (n : k.Node) :
    Alike r (around v table k inside n) (around v' table k inside' n) :=
  (alike_call hv _ _ _).bind fun n => (h n).bind fun n => alike_call hv _ _ n

theorem alike_leaf (k : NodeKind) (n : k.Node) : Alike r (leaf v table k n) (leaf v' table k n) :=
  alike_around hv k .pure n

/-! ### Values and types -/

theorem alike_name (n : Name) : Alike r (name v table n) (name v' table n) := alike_leaf hv .name n

theorem alike_variableUse (x : Variable) : Alike r (variableUse v table x) (variableUse v' table x) :=
  alike_around hv .variable (fun x : Variable => (alike_name hv x.name).bind fun _ => .pure _) x

theorem alike_namedType (t : NamedType) : Alike r (namedType v table t) (namedType v' table t) :=
  alike_around hv .namedType (fun t : NamedType => (alike_name hv t.name).bind fun _ => .pure _) t

theorem alike_typeRef (limit : Nat) (t : TypeRef) :
    Alike r (typeRef v table limit t) (typeRef v' table limit t) := by
  induction limit generalizing t with
  | zero => exact alike_failure
  | succ limit ih =>
    cases t with
    | named t => exact (alike_namedType hv t).map _
    | list t =>
      exact (alike_around hv .listType (fun t : ListType => (ih t.item).bind fun _ => .pure _) t).map _
    | nonNull t =>
      exact (alike_around hv .nonNullType (fun t : NonNullType =>
        (ih t.nullable).bind fun _ => .pure _) t).map _

theorem alike_value (limit : Nat) (x : Value) :
    Alike r (value v table limit x) (value v' table limit x) := by
  induction limit generalizing x with
  | zero => exact alike_failure
  | succ limit ih =>
    cases x with
    | «variable» x => exact (alike_variableUse hv x).map _
    | int x => exact (alike_leaf hv .int x).map _
    | float x => exact (alike_leaf hv .float x).map _
    | string x => exact (alike_leaf hv .string x).map _
    | boolean x => exact (alike_leaf hv .boolean x).map _
    | null x => exact (alike_leaf hv .null x).map _
    | enum x => exact (alike_leaf hv .enum x).map _
    | list x =>
      exact (alike_around hv .list (fun x : ListValue =>
        (alike_mapM ih x.values).bind fun _ => .pure _) x).map _
    | object x =>
      have hfield := alike_around hv .objectField fun f : ObjectField =>
        (alike_name hv f.name).bind fun name => (ih f.value).bind fun value =>
          .pure { f with name, value }
      exact (alike_around hv .object (fun x : ObjectValue =>
        (alike_mapM hfield x.fields).bind fun _ => .pure _) x).map _

/-! ### Selections -/

theorem alike_argument (a : Argument) : Alike r (argument v table limit a) (argument v' table limit a) :=
  alike_around hv .argument (fun a : Argument => (alike_name hv a.name).bind fun _ =>
    (alike_value hv limit a.value).bind fun _ => .pure _) a

theorem alike_directive (d : Directive) :
    Alike r (directive v table limit d) (directive v' table limit d) :=
  alike_around hv .directive (fun d : Directive => (alike_name hv d.name).bind fun _ =>
    (alike_mapM (alike_argument hv) d.arguments).bind fun _ => .pure _) d

theorem alike_spread (f : FragmentSpread) : Alike r (spread v table limit f) (spread v' table limit f) :=
  alike_around hv .spread (fun f : FragmentSpread => (alike_name hv f.name).bind fun _ =>
    (alike_mapM (alike_directive hv) f.directives).bind fun _ => .pure _) f

section Set
variable {set : SelectionSet → Walk σ SelectionSet} {set' : SelectionSet → Walk τ SelectionSet}
  (hset : ∀ x, Alike r (set x) (set' x))
include hset

theorem alike_field (f : FieldSelection) :
    Alike r (field v table limit set f) (field v' table limit set' f) := by
  refine alike_around hv .field (fun f : FieldSelection => ?_) f
  refine (alike_name hv f.name).bind fun name => ?_
  refine (alike_optionMapM (alike_name hv) f.aliasName).bind fun aliasName => ?_
  refine (alike_mapM (alike_argument hv) f.arguments).bind fun arguments => ?_
  refine (alike_optionMapM hset f.selectionSet).bind fun selectionSet => ?_
  exact (alike_mapM (alike_directive hv) f.directives).bind fun _ => .pure _

theorem alike_inline (f : InlineFragment) :
    Alike r (inline v table limit set f) (inline v' table limit set' f) := by
  refine alike_around hv .inline (fun f : InlineFragment => ?_) f
  refine (alike_optionMapM (alike_namedType hv) f.typeCondition).bind fun typeCondition => ?_
  refine (alike_mapM (alike_directive hv) f.directives).bind fun directives => ?_
  exact (hset f.selectionSet).bind fun _ => .pure _

theorem alike_selection (x : Selection) :
    Alike r (selection v table limit set x) (selection v' table limit set' x) := by
  cases x with
  | field f => exact (alike_field hv hset f).map _
  | spread f => exact (alike_spread hv f).map _
  | inline f => exact (alike_inline hv hset f).map _

end Set

theorem alike_selectionSet (limit : Nat) (x : SelectionSet) :
    Alike r (selectionSet v table limit x) (selectionSet v' table limit x) := by
  induction limit generalizing x with
  | zero => exact alike_failure
  | succ limit ih =>
    exact alike_around hv .selectionSet (fun x : SelectionSet =>
      (alike_mapM (alike_selection hv ih) x.selections).bind fun _ => .pure _) x

/-! ### Definitions -/

theorem alike_variableDefinition (d : VariableDefinition) :
    Alike r (variableDefinition v table limit d) (variableDefinition v' table limit d) := by
  refine alike_around hv .variableDefinition (fun d : VariableDefinition => ?_) d
  refine (alike_variableUse hv d.declared).bind fun declared => ?_
  refine (alike_typeRef hv limit d.type).bind fun type => ?_
  refine (alike_optionMapM (alike_value hv limit) d.default).bind fun default => ?_
  exact (alike_mapM (alike_directive hv) d.directives).bind fun _ => .pure _

theorem alike_operation (d : OperationDefinition) :
    Alike r (operation v table limit d) (operation v' table limit d) := by
  refine alike_around hv .operation (fun d : OperationDefinition => ?_) d
  refine (alike_optionMapM (alike_name hv) d.name).bind fun name => ?_
  refine (alike_mapM (alike_variableDefinition hv) d.variableDefinitions).bind fun declared => ?_
  refine (alike_mapM (alike_directive hv) d.directives).bind fun directives => ?_
  exact (alike_selectionSet hv limit d.selectionSet).bind fun _ => .pure _

theorem alike_fragment (d : FragmentDefinition) :
    Alike r (fragment v table limit d) (fragment v' table limit d) := by
  refine alike_around hv .fragment (fun d : FragmentDefinition => ?_) d
  refine (alike_namedType hv d.typeCondition).bind fun typeCondition => ?_
  refine (alike_name hv d.name).bind fun name => ?_
  refine (alike_mapM (alike_directive hv) d.directives).bind fun directives => ?_
  exact (alike_selectionSet hv limit d.selectionSet).bind fun _ => .pure _

theorem alike_definition (d : Definition) :
    Alike r (definition v table limit d) (definition v' table limit d) := by
  cases d with
  | operation d => exact (alike_operation hv d).map _
  | fragment d => exact (alike_fragment hv d).map _
  | _ => exact fun s t hst => .some (hv.definition _ s t hst)

/-- **Visitors that act alike leave the same document**, or the walks of both fail. -/
theorem alike_document (d : Document) : Alike r (document v table limit d) (document v' table limit d) :=
  alike_around hv .document (fun d : Document =>
    (alike_mapM (alike_definition hv) d.definitions).bind fun _ => .pure _) d

end Walk

end QueryDocs
