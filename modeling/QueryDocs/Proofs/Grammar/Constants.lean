import QueryDocs.Proofs.Document.Variables
import QueryDocs.Proofs.Grammar.Ends

/-! # Rules that refuse variables

`Restricts` compares a rule that admits variables with one that does not: they do the same where no
variable is read, and the second one fails at the first variable that the first one reads. A constant
value is read by a rule that restricts the rule for all values (`restricts_value`). -/

namespace QueryDocs.Rule

/-- A rule goes on like another one as long as that one reads no variable, and fails at the dollar sign
of the first variable that it reads. -/
structure Restricts {α : Type} (N : α → List Variable) (r r' : Rule α) (c : Cursor) : Prop where
  same : ∀ {x d}, r c = .ok (x, d) → N x = [] → r' c = .ok (x, d)
  refused : ∀ {x d y ys}, r c = .ok (x, d) → N x = y :: ys → ∃ t, t.kind = .dollar ∧
    t.span.start = y.span.start ∧ r' c = .error (.unexpected .constantValue t)
  error : ∀ {e}, r c = .error e → ∃ e', r' c = .error e'

section Steps
variable {α β γ : Type} {r r' : Rule α} {k k' : α → Rule β} {c : Cursor} {N : α → List Variable}
  {M : β → List Variable} {L : γ → List Variable}

theorem Restricts.refl (h : ∀ x d, r c = .ok (x, d) → N x = []) : Restricts N r r c where
  same hr _ := hr
  refused hr hx := by
    rw [h _ _ hr] at hx
    cases hx
  error hr := ⟨_, hr⟩

theorem Restricts.fail {e e' : Expectation} : Restricts N (fail e) (fail e') c where
  same hr _ := by cases hr
  refused hr _ := by cases hr
  error _ := ⟨_, rfl⟩

/-- Only what the rules do at a place matters. -/
theorem Restricts.of_eq {a a' : Rule α} {d : Cursor} (h : Restricts N a a' d) (hr : r c = a d)
    (hr' : r' c = a' d) : Restricts N r r' c where
  same := by rw [hr, hr']; exact h.same
  refused := by rw [hr, hr']; exact h.refused
  error := by rw [hr, hr']; exact h.error

/-- A rule that reads no variables, in front of others. -/
theorem Restricts.after {s : Rule γ} {k k' : γ → Rule α}
    (hk : ∀ x d, Restricts N (k x) (k' x) d) : Restricts N (s >>= k) (s >>= k') c := by
  cases hs : s c with
  | error e =>
    refine ⟨fun h _ => ?_, fun h _ => ?_, fun _ => ⟨e, bind_error hs⟩⟩
    · cases (bind_error hs).symm.trans h
    · cases (bind_error hs).symm.trans h
  | ok p => exact (hk p.1 p.2).of_eq (bind_ok hs) (bind_ok hs)

theorem Restricts.append {f : α → β → γ} (h : Restricts N r r' c)
    (hk : ∀ x d, Restricts M (k x) (k' x) d) (hf : ∀ x y, L (f x y) = N x ++ M y) :
    Restricts L (r >>= fun x => k x >>= fun y => pure (f x y))
      (r' >>= fun x => k' x >>= fun y => pure (f x y)) c where
  same {z e} hr hz := by
    obtain ⟨x, d, hx, hr⟩ := bind_eq_ok hr
    obtain ⟨y, _, hy, hr⟩ := bind_eq_ok hr
    cases hr
    obtain ⟨hnone, hnone'⟩ := List.append_eq_nil_iff.mp ((hf x y).symm.trans hz)
    rw [bind_ok (h.same hx hnone), bind_ok ((hk x d).same hy hnone')]
    rfl
  refused {z e v vs} hr hz := by
    obtain ⟨x, d, hx, hr⟩ := bind_eq_ok hr
    obtain ⟨y, _, hy, hr⟩ := bind_eq_ok hr
    cases hr
    rw [hf] at hz
    -- the first variable is one of the first result, or else the first one of the second result
    cases hN : N x with
    | nil =>
      rw [hN, List.nil_append] at hz
      obtain ⟨t, ht, hstart, hr'⟩ := (hk x d).refused hy hz
      refine ⟨t, ht, hstart, ?_⟩
      rw [bind_ok (h.same hx hN), bind_error hr']
    | cons w ws =>
      rw [hN] at hz
      cases hz
      obtain ⟨t, ht, hstart, hr'⟩ := h.refused hx hN
      exact ⟨t, ht, hstart, bind_error hr'⟩
  error {e} hr := by
    cases hx : r c with
    | error f =>
      obtain ⟨f', hf'⟩ := h.error hx
      exact ⟨f', bind_error hf'⟩
    | ok p =>
      obtain ⟨x, d⟩ := p
      -- a variable in the first result is refused, even where `r` would fail only behind it
      cases hN : N x with
      | cons w ws =>
        obtain ⟨t, -, -, hr'⟩ := h.refused hx hN
        exact ⟨_, bind_error hr'⟩
      | nil =>
        rw [bind_ok hx] at hr
        rw [bind_ok (h.same hx hN)]
        cases hy : k x d with
        | error f =>
          obtain ⟨f', hf'⟩ := (hk x d).error hy
          exact ⟨f', bind_error hf'⟩
        | ok q =>
          rw [bind_ok hy] at hr
          cases hr

theorem Restricts.get {f f' : Cursor → Rule α} (h : Restricts N (f c) (f' c) c) :
    Restricts N (get >>= f) (get >>= f') c := h.of_eq rfl rfl

theorem Restricts.ite {p : Prop} [Decidable p] {a a' b b' : Rule α} (ha : Restricts N a a' c)
    (hb : Restricts N b b' c) : Restricts N (if p then a else b) (if p then a' else b') c := by
  split_ifs
  · exact ha
  · exact hb

theorem Restricts.ifToken {p : Token → Bool} {a a' b b' : Rule α} (ha : Restricts N a a' c)
    (hb : Restricts N b b' c) : Restricts N (atToken p >>= fun y => if y = true then a else b)
      (atToken p >>= fun y => if y = true then a' else b') c :=
  .get (f := fun c => if p c.current = true then a else b) (.ite ha hb)

/-! ### Repetitions -/

theorem restricts_repeatWhile {p : Token → Bool} (h : ∀ c, Restricts N r r' c) (n : Nat)
    (c : Cursor) : Restricts (·.flatMap N) (repeatWhile p r n) (repeatWhile p r' n) c := by
  induction n generalizing c with
  | zero => exact .refl fun _ _ hr => by cases hr; rfl
  | succ n ih =>
    refine .ifToken (.append (h c) (fun _ d => ih d) fun x xs => List.flatMap_cons) ?_
    exact .refl fun _ _ hr => by cases hr; rfl

theorem restricts_upTo {close : Token.Kind} (h : ∀ c, Restricts N r r' c) (n : Nat) (c : Cursor) :
    Restricts (·.flatMap N) (upTo close r n) (upTo close r' n) c :=
  .append (M := fun _ => []) (restricts_repeatWhile h n c)
    (fun _ _ => .refl fun _ _ _ => rfl) fun _ _ => (List.append_nil _).symm

end Steps

/-! ### Values -/

section Values
variable {c d : Cursor} {limit : Nat}

theorem start_of_variableUse {x : Variable} (h : variableUse c = .ok (x, d)) :
    c.current.kind = .dollar ∧ x.span.start = c.current.span.start := by
  obtain ⟨_, _, hstart, h⟩ := bind_eq_ok h
  cases hstart
  obtain ⟨_, e, hexpect, h⟩ := bind_eq_ok h
  obtain ⟨n, f, -, h⟩ := bind_eq_ok h
  cases h
  refine ⟨?_, rfl⟩
  obtain ⟨b, _, hb, hexpect⟩ := bind_eq_ok hexpect
  cases hb
  by_contra hkind
  simp only [beq_iff_eq, hkind, if_false] at hexpect
  cases hexpect

/-- **Where a variable stands, a constant value is refused.** -/
theorem restricts_variableUse :
    Restricts Value.variables (variableUse >>= fun x => pure (.variable x)) (fail .constantValue) c where
  same hr hx := by
    obtain ⟨x, _, -, hr⟩ := bind_eq_ok hr
    cases hr
    cases hx
  refused hr hx := by
    obtain ⟨x, _, hvariable, hr⟩ := bind_eq_ok hr
    cases hr
    cases hx
    obtain ⟨hkind, hstart⟩ := start_of_variableUse hvariable
    exact ⟨c.current, hkind, hstart.symm, rfl⟩
  error _ := ⟨_, rfl⟩

theorem variables_ofWord (text : String) (span : Span) : (ofWord text span).variables = [] := by
  unfold ofWord
  split_ifs <;> rfl

theorem restricts_objectField {r r' : Rule Value} (h : ∀ c, Restricts Value.variables r r' c) :
    Restricts ObjectField.variables (objectField r) (objectField r') c :=
  .after fun _ _ => .after fun _ _ => .after fun _ _ =>
    .append (M := fun _ => []) (h _) (fun _ _ => .refl fun _ _ _ => rfl)
      fun _ _ => (List.append_nil _).symm

/-- **A constant value is read as any value is**, up to the first variable in it. -/
theorem restricts_value (limit : Nat) (c : Cursor) :
    Restricts Value.variables (value false limit) (value true limit) c := by
  induction limit generalizing c with
  | zero => exact .fail
  | succ limit ih =>
    unfold value
    refine .get ?_
    dsimp only
    cases hk : c.current.kind <;> simp only <;> try exact .fail
    case dollar => exact restricts_variableUse
    case leftBracket =>
      refine .after fun _ d => .append (M := fun _ => []) (restricts_upTo ih limit d) ?_ ?_
      · exact fun _ _ => .refl fun _ _ _ => rfl
      · simp
    case leftBrace =>
      refine .after fun _ d => .append (M := fun _ => [])
        (restricts_upTo (fun _ => restricts_objectField ih) limit d) ?_ ?_
      · exact fun _ _ => .refl fun _ _ _ => rfl
      · simp
    case name => exact .after fun _ _ => .refl fun _ _ hr => by cases hr; exact variables_ofWord _ _
    all_goals exact .after fun _ _ => .refl fun _ _ hr => by cases hr; rfl

end Values

end QueryDocs.Rule
