import QueryDocs.Proofs.Excerpt
import QueryDocs.Proofs.SyntaxErrors

/-! # Places in a text

Rules move on by taking tokens and in no other way (`Rule.Forward`). So each place that the reading of
a text comes to is the start of the text, or it stands behind some of its tokens
(`Source.Reaches.before`), and the tokens passed from there lie one behind the other
(`Source.Reaches.ordered`). -/

namespace QueryDocs

/-- A place is reached from another one by taking tokens. -/
abbrev Cursor.Onward : Cursor → Cursor → Prop :=
  Relation.ReflTransGen fun c d => Rule.advance c = .ok ((), d)

/-! ### Rules move on -/

namespace Rule

/-- A rule comes to a place by taking tokens, and fails at the current token of such a place. -/
structure Forward {α : Type} (r : Rule α) (c : Cursor) : Prop where
  ok : ∀ {x d}, r c = .ok (x, d) → c.Onward d
  unexpected : ∀ {e t}, r c = .error (.unexpected e t) → ∃ d, c.Onward d ∧ d.current = t

section Forward
variable {α β : Type} {r a b : Rule α} {k : α → Rule β} {c : Cursor} {p : Token → Bool}

theorem Forward.pure {x : α} : Forward (pure x) c where
  ok hr := by
    cases hr
    exact .refl
  unexpected hr := by cases hr

theorem Forward.fail {e : Expectation} : Forward (fail e : Rule α) c where
  ok hr := by cases hr
  unexpected hr := by
    cases hr
    exact ⟨c, .refl, rfl⟩

theorem Forward.bind (h : Forward r c) (hk : ∀ x d, Forward (k x) d) : Forward (r >>= k) c where
  ok hr := by
    obtain ⟨x, d, h1, h2⟩ := bind_eq_ok hr
    exact (h.ok h1).trans ((hk x d).ok h2)
  unexpected hr := by
    cases h1 : r c with
    | error f =>
      rw [bind_error h1] at hr
      cases hr
      exact h.unexpected h1
    | ok q =>
      rw [bind_ok h1] at hr
      obtain ⟨d, hd, ht⟩ := (hk q.1 q.2).unexpected hr
      exact ⟨d, (h.ok h1).trans hd, ht⟩

theorem Forward.get {f : Cursor → Rule α} (h : Forward (f c) c) : Forward (get >>= f) c :=
  ⟨h.ok, h.unexpected⟩

theorem Forward.ite {q : Prop} [Decidable q] (ha : Forward a c) (hb : Forward b c) :
    Forward (if q then a else b) c := by
  split_ifs
  · exact ha
  · exact hb

theorem Forward.ifToken (ha : Forward a c) (hb : Forward b c) :
    Forward (atToken p >>= fun y => if y = true then a else b) c :=
  .get (f := fun c => if p c.current = true then a else b) (.ite ha hb)

theorem forward_advance : Forward advance c where
  ok hr := .single hr
  unexpected hr := by
    obtain ⟨f, hf, -⟩ := advance_error hr
    cases hf

theorem forward_start : Forward start c := .get .pure

theorem forward_spanFrom {n : Nat} : Forward (spanFrom n) c := .get .pure

theorem forward_expect {k : Token.Kind} : Forward (expect k) c := .ifToken forward_advance .fail

theorem forward_name : Forward name c :=
  .get (.ite (.bind forward_advance fun _ _ => .pure) .fail)

theorem forward_repeatWhile (h : ∀ c, Forward r c) (n : Nat) (c : Cursor) :
    Forward (repeatWhile p r n) c := by
  induction n generalizing c with
  | zero => exact .pure
  | succ n ih =>
    exact .ifToken (.bind (h c) fun _ d => .bind (ih d) fun _ _ => .pure) .pure

theorem forward_upTo {close : Token.Kind} (h : ∀ c, Forward r c) (n : Nat) (c : Cursor) :
    Forward (upTo close r n) c :=
  .bind (forward_repeatWhile h n c) fun _ _ => .bind forward_expect fun _ _ => .pure

theorem forward_variableUse : Forward variableUse c := by
  refine .bind forward_start fun start _ => ?_
  refine .bind forward_expect fun _ _ => ?_
  refine .bind forward_name fun name _ => ?_
  exact .bind forward_spanFrom fun _ _ => .pure

theorem forward_objectField {r : Rule Value} (h : ∀ c, Forward r c) : Forward (objectField r) c := by
  refine .bind forward_start fun start _ => ?_
  refine .bind forward_name fun name _ => ?_
  refine .bind forward_expect fun _ _ => ?_
  refine .bind (h _) fun value _ => ?_
  exact .bind forward_spanFrom fun _ _ => .pure

theorem forward_value (isConst : Bool) (limit : Nat) (c : Cursor) :
    Forward (value isConst limit) c := by
  induction limit generalizing c with
  | zero => exact .fail
  | succ limit ih =>
    unfold value
    refine .get ?_
    dsimp only
    cases c.current.kind <;> simp only <;> try exact .fail
    case dollar => exact .ite .fail (.bind forward_variableUse fun _ _ => .pure)
    case leftBracket =>
      refine .bind forward_advance fun _ d => ?_
      refine .bind (forward_upTo ih limit d) fun values _ => ?_
      exact .bind forward_spanFrom fun _ _ => .pure
    case leftBrace =>
      refine .bind forward_advance fun _ d => ?_
      refine .bind (forward_upTo (fun _ => forward_objectField ih) limit d) fun fields _ => ?_
      exact .bind forward_spanFrom fun _ _ => .pure
    case string | blockString =>
      exact .bind (.get (.bind forward_advance fun _ _ => .pure)) fun _ _ => .pure
    all_goals exact .bind forward_advance fun _ _ => .pure

end Forward

end Rule

/-! ### Places of a text -/

/-- The reading of a text comes to a place from its start. -/
def Source.Reaches (s : Source) (c : Cursor) : Prop :=
  Cursor.Onward ⟨.startOfText, .ofSource s, 0⟩ c

section Places
variable {s : Source} {c d : Cursor} {ts : List Token}

/-- **A place that reading comes to** is the start of the text or stands behind some of its tokens. -/
theorem Source.Reaches.before (h : s.Reaches c) : c = ⟨.startOfText, .ofSource s, 0⟩ ∨
    ∃ us s', TokenStream.ofSource s = .prepend us s' ∧ c.Before s' := by
  have hproper := TokenStream.proper_ofSource s
  induction h with
  | refl => exact Or.inl rfl
  | @tail c d h ha ih =>
    refine Or.inr ?_
    rcases ih with rfl | ⟨us, s', hs, hbefore⟩
    · exact ⟨[], _, rfl, (Cursor.before_of_advance hproper ha).1⟩
    · rw [hs, TokenStream.proper_prepend] at hproper
      cases hbefore with
      | @token t rest n he =>
        refine ⟨us ++ [t], rest, ?_, (Cursor.before_of_advance hproper.2.2 ha).1⟩
        rw [hs, TokenStream.prepend_append]
        rfl
      | finish he => exact ⟨us, _, hs, (Cursor.before_of_advance hproper.2 ha).1⟩

/-- A place behind the start stands behind some tokens of the text, and in front of proper ones. -/
theorem Source.Reaches.exists_prepend (h : s.Reaches c) (hstart : c.current.kind ≠ .startOfText) :
    ∃ us s', TokenStream.ofSource s = .prepend us s' ∧ s'.Proper ∧ c.Before s' := by
  rcases h.before with rfl | ⟨us, s', hs, hbefore⟩
  · exact absurd rfl hstart
  · have hproper := TokenStream.proper_ofSource s
    rw [hs, TokenStream.proper_prepend] at hproper
    exact ⟨us, s', hs, hproper.2, hbefore⟩

/-- Behind the start, reading stays within a bound. -/
theorem Source.Reaches.within (h : s.Reaches c) (hstart : c.current.kind ≠ .startOfText) :
    ∃ limit, c.Within limit := by
  obtain ⟨us, s', -, hproper, hbefore⟩ := h.exists_prepend hstart
  exact ⟨_, hbefore.within hproper⟩

/-- The tokens passed behind the start of a text lie one behind the other. -/
theorem Source.Reaches.ordered (h : s.Reaches c) (hstart : c.current.kind ≠ .startOfText)
    (hp : c.Passes ts d) : Ordered ts := by
  obtain ⟨us, s', hs, hproper, hbefore⟩ := h.exists_prepend hstart
  obtain ⟨s'', rfl, -⟩ := hp.before hproper hbefore
  rw [← TokenStream.prepend_append] at hs
  obtain ⟨offset, rest, -, hscans, -⟩ := scans_of_ofChars (Nat.lt_succ_self _) hs
  obtain ⟨-, hin, hpairwise⟩ := hscans.spans
  exact (Ordered.mk (fun t ht => (hin t ht).2.1) hpairwise).of_append.2.1

theorem Source.Reaches.scan_current (h : s.Reaches c) (hstart : c.current.kind ≠ .startOfText) :
    ∃ offset cs rest, scan offset cs = .ok (c.current, rest) := by
  obtain ⟨us, s', hs, -, hbefore⟩ := h.exists_prepend hstart
  obtain ⟨offset, cs, limit, -, hl, rfl⟩ := scans_of_ofChars (Nat.lt_succ_self _) hs
  obtain ⟨rest, hscan⟩ := scan_of_head? hl hbefore.head?
  exact ⟨offset, cs, rest, hscan⟩

end Places

end QueryDocs
