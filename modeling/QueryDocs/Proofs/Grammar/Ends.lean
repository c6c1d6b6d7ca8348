import QueryDocs.Grammar.Parse
import QueryDocs.Proofs.Document.Neighbours
import QueryDocs.Proofs.Grammar.Reads

/-! # Where rules end

What holds of the result of a rule and the place it ends at, wherever it started: definitions span
the tokens they were read from, and a body that can be read is read. -/

namespace QueryDocs.Rule

/-- Every successful run of a rule has a result and an end of which something holds. -/
def Ends {α : Type} (r : Rule α) (Q : α → Cursor → Prop) : Prop :=
  ∀ c x d, r c = .ok (x, d) → Q x d

section Steps
variable {α β : Type} {r : Rule α} {k : α → Rule β} {c : Cursor} {P : α → Cursor → Prop}
  {Q : β → Cursor → Prop}

theorem bind_eq_ok {y : β} {e : Cursor} (h : (r >>= k) c = .ok (y, e)) :
    ∃ x d, r c = .ok (x, d) ∧ k x d = .ok (y, e) := by
  cases hr : r c with
  | error f => rw [bind_error hr] at h; cases h
  | ok p => exact ⟨p.1, p.2, rfl, by rwa [bind_ok hr] at h⟩

theorem Ends.bind (h : ∀ x, Ends (k x) Q) : Ends (r >>= k) Q := by
  intro c y e hr
  obtain ⟨x, d, -, hk⟩ := bind_eq_ok hr
  exact h x d y e hk

theorem Ends.map {f : α → β} (h : Ends r P) (hf : ∀ x d, P x d → Q (f x) d) :
    Ends (r >>= fun x => Pure.pure (f x)) Q := by
  intro c y e hr
  obtain ⟨x, d, h1, hk⟩ := bind_eq_ok hr
  cases hk
  exact hf x _ (h c x _ h1)

theorem Ends.ite {b : Bool} {a a' : Rule α} (h : b = true → Ends a P) (h' : b = false → Ends a' P) :
    Ends (if b = true then a else a') P := by
  cases b with
  | true => exact h rfl
  | false => exact h' rfl

theorem Ends.fail {e : Expectation} : Ends (Rule.fail e) P := fun _ _ _ h => by cases h

theorem Ends.start {x : α} {d : Cursor} {k : Nat → Rule α} {P : Nat → α → Cursor → Prop}
    (h : ∀ n, Ends (k n) (P n)) (hr : (start >>= k) c = .ok (x, d)) :
    P c.current.span.start x d :=
  h _ c x d hr

theorem Ends.spanFrom {start : Nat} {f : α → Span → β} (h : Ends r P)
    (hf : ∀ x d, P x d → Q (f x ⟨start, max d.lastStop start⟩) d) :
    Ends (r >>= fun x => spanFrom start >>= fun s => Pure.pure (f x s)) Q := by
  intro c y e hr
  obtain ⟨x, d, h1, hk⟩ := bind_eq_ok hr
  cases hk
  exact hf x _ (h c x _ h1)

end Steps

theorem ends_any {α : Type} (r : Rule α) : Ends r fun _ _ => True := fun _ _ _ _ => trivial

/-- Where items in brackets are not read, there is no opening bracket. -/
theorem ends_optionalBetween {α : Type} {limit : Nat} {opening close : Token.Kind} {item : Rule α} :
    Ends (optionalBetween limit opening item close) fun xs d => xs = [] → d.current.kind ≠ opening := by
  intro c xs d hr hxs
  subst hxs
  obtain ⟨b, c', hb, hk⟩ := bind_eq_ok hr
  cases hb
  cases hopen : c.current.kind == opening with
  | false =>
    simp only [hopen, Bool.false_eq_true, if_false] at hk
    cases hk
    simpa using hopen
  | true =>
    simp only [hopen, if_true] at hk
    obtain ⟨_, _, -, hk⟩ := bind_eq_ok hk
    obtain ⟨_, _, -, hk⟩ := bind_eq_ok hk
    obtain ⟨_, _, -, hk⟩ := bind_eq_ok hk
    cases hk

/-! ### Definitions -/

/-- A definition spans the tokens from an offset on, and it has the body that it can have. -/
def Complete (start : Nat) (span : Span) (lacksBody : Bool) (d : Cursor) : Prop :=
  span = ⟨start, max d.lastStop start⟩ ∧ (lacksBody = true → d.current.kind ≠ .leftBrace)

section Definitions
variable (limit start : Nat) (description : Option StringValue)

theorem ends_composite :
    Ends (composite limit start description) fun x d => Complete start x.span x.fields.isEmpty d := by
  refine .bind fun _ => ?_
  refine .bind fun name => ?_
  refine .bind fun interfaces => ?_
  refine .bind fun directives => ?_
  exact .spanFrom ends_optionalBetween fun _ _ h => ⟨rfl, fun hxs => h (List.isEmpty_iff.mp hxs)⟩

theorem ends_membered {α β : Type} {make : Option StringValue → Name → List Directive → α → Span → β}
    {members : Rule α} {P : α → Cursor → Prop} {Q : β → Cursor → Prop} (h : Ends members P)
    (hmake : ∀ name directives xs d, P xs d →
      Q (make description name directives xs ⟨start, max d.lastStop start⟩) d) :
    Ends (membered make members limit start description) Q := by
  refine .bind fun _ => ?_
  refine .bind fun name => ?_
  refine .bind fun directives => ?_
  exact .spanFrom h (hmake name directives)

theorem ends_typeDefinition :
    Ends (typeDefinition limit start description)
      fun x d => Complete start x.span x.lacksBody d := by
  refine .bind fun c => .ite (fun _ => ?_) fun _ => .ite (fun _ => ?_) fun _ => .ite (fun _ => ?_)
    fun _ => .ite (fun _ => ?_) fun _ => .ite (fun _ => ?_) fun _ => .ite (fun _ => ?_) fun _ => .fail
  · refine .map (P := fun x d => x.span = ⟨start, max d.lastStop start⟩) ?_
      fun _ _ h => ⟨h, fun h => by cases h⟩
    refine .bind fun _ => ?_
    refine .bind fun name => ?_
    exact .spanFrom (ends_any _) fun _ _ _ => rfl
  · exact .map (ends_composite limit start description) fun _ _ => id
  · exact .map (ends_composite limit start description) fun _ _ => id
  · exact .map (ends_membered limit start description (ends_any _) fun _ _ _ _ _ => rfl)
      fun _ _ h => ⟨h, fun h => by cases h⟩
  · exact .map (ends_membered limit start description ends_optionalBetween fun _ _ _ _ h =>
      ⟨rfl, fun hxs => h (List.isEmpty_iff.mp hxs)⟩) fun _ _ => id
  · exact .map (ends_membered limit start description ends_optionalBetween fun _ _ _ _ h =>
      ⟨rfl, fun hxs => h (List.isEmpty_iff.mp hxs)⟩) fun _ _ => id

/-- What holds of a definition at the place that it ends at. -/
def Finished (x : Definition) (d : Cursor) : Prop := Complete start x.span x.lacksBody d

theorem ends_operation : ∀ {c d : Cursor} {x : OperationDefinition},
    operation limit c = .ok (x, d) → Finished c.current.span.start (.operation x) d := by
  refine Ends.start (P := fun n x d => Finished n (.operation x) d) fun n => ?_
  refine .bind fun b => .ite (fun _ => ?_) fun _ => ?_
  · exact .spanFrom (ends_any _) fun _ _ _ => ⟨rfl, fun h => by cases h⟩
  · refine .bind fun operation => ?_
    refine .bind fun title => ?_
    refine .bind fun declared => ?_
    refine .bind fun directives => ?_
    exact .spanFrom (ends_any _) fun _ _ _ => ⟨rfl, fun h => by cases h⟩

theorem ends_fragment : ∀ {c d : Cursor} {x : FragmentDefinition},
    fragment limit c = .ok (x, d) → Finished c.current.span.start (.fragment x) d := by
  refine Ends.start (P := fun n x d => Finished n (.fragment x) d) fun n => ?_
  refine .bind fun _ => ?_
  refine .bind fun isOn => .ite (fun _ => .fail) fun _ => ?_
  refine .bind fun name => ?_
  refine .bind fun _ => ?_
  refine .bind fun typeCondition => ?_
  refine .bind fun directives => ?_
  exact .spanFrom (ends_any _) fun _ _ _ => ⟨rfl, fun h => by cases h⟩

theorem ends_extension : ∀ {c d : Cursor} {x : TypeExtension},
    extension limit c = .ok (x, d) → Finished c.current.span.start (.extension x) d := by
  refine Ends.start (P := fun n x d => Finished n (.extension x) d) fun n => ?_
  refine .bind fun _ => ?_
  refine .bind fun inner => ?_
  exact .spanFrom (ends_typeDefinition limit inner none) fun _ _ h => ⟨rfl, h.2⟩

/-- What stands behind the description, which tells the start. -/
theorem ends_typeSystemDefinition {c d : Cursor} {x : Definition}
    (h : typeSystemDefinition limit description c = .ok (x, d)) :
    Finished ((description.map (·.span.start)).getD c.current.span.start) x d := by
  have hrest : ∀ n, Ends (do
      let t := (← get).current
      if t.isWord "schema" then return .schema (← schema limit n description)
      else if t.isWord "directive" then
        return .directive (← directiveDefinition limit n description)
      else return .type (← typeDefinition limit n description)) (Finished n) := by
    refine fun n => .bind fun c => .ite (fun _ => ?_) fun _ => .ite (fun _ => ?_) fun _ => ?_
    · refine .map (P := fun x d => x.span = ⟨n, max d.lastStop n⟩) ?_
        fun _ _ h => ⟨h, fun h => by cases h⟩
      refine .bind fun _ => ?_
      refine .bind fun directives => ?_
      exact .spanFrom (ends_any _) fun _ _ _ => rfl
    · refine .map (P := fun x d => x.span = ⟨n, max d.lastStop n⟩) ?_
        fun _ _ h => ⟨h, fun h => by cases h⟩
      refine .bind fun _ => ?_
      refine .bind fun _ => ?_
      refine .bind fun name => ?_
      refine .bind fun arguments => ?_
      refine .bind fun repeatable => ?_
      have hlocations : Ends (do
          expectWord "on"
          let _ ← accept .pipe
          let locations ← separated limit .pipe directiveLocation
          return DirectiveDefinition.mk description name arguments repeatable locations
            (← spanFrom n)) fun x d => x.span = ⟨n, max d.lastStop n⟩ := by
        refine .bind fun _ => ?_
        refine .bind fun _ => ?_
        exact .spanFrom (ends_any _) fun _ _ _ => rfl
      cases repeatable with
      | false => exact hlocations
      | true => exact .bind fun _ => hlocations
    · exact .map (ends_typeDefinition limit n description) fun _ _ => id
  cases description with
  | none => exact hrest _ c x d h
  | some v => exact hrest _ c x d h

end Definitions

/-- **A definition spans the tokens it is read from, and a brace behind it does not open a body that
it could have.** -/
theorem ends_definition {limit : Nat} {c d : Cursor} {x : Definition}
    (h : definition limit c = .ok (x, d)) : Finished c.current.span.start x d := by
  change (if startsOperation c.current then _ else _ : Rule Definition) c = _ at h
  split_ifs at h
  · obtain ⟨y, e, hy, hk⟩ := bind_eq_ok h
    cases hk
    exact ends_operation limit hy
  · obtain ⟨v, e, hv, hk⟩ := bind_eq_ok h
    have hstart : v.span = c.current.span := by
      obtain ⟨_, _, hget, hv⟩ := bind_eq_ok hv
      cases hget
      obtain ⟨_, _, -, hv⟩ := bind_eq_ok hv
      cases hv
      rfl
    have := ends_typeSystemDefinition limit (some v) hk
    rwa [Option.map_some, Option.getD_some, hstart] at this
  · obtain ⟨y, e, hy, hk⟩ := bind_eq_ok h
    cases hk
    exact ends_fragment limit hy
  · obtain ⟨y, e, hy, hk⟩ := bind_eq_ok h
    cases hk
    exact ends_extension limit hy
  · exact ends_typeSystemDefinition limit none h

end QueryDocs.Rule
