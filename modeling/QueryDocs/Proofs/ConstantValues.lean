import QueryDocs.Proofs.Grammar.Constants
import QueryDocs.Proofs.Grammar.Places
import QueryDocs.Proofs.SpanTree

/-! # Constant values

A constant value is read exactly where a value without variables is, and up to the same place. A value
with variables is refused at the dollar sign of the one that is written first
(`Source.Reaches.constant_value`). -/

namespace QueryDocs

/-! ### Variables over tokens -/

namespace Node

mutual

theorem Placed.laid_variables : ∀ {v : Value} {ts : List Token}, Placed (.value v) ts →
    Laid (v.variables.map fun x => .value (.variable x)) ts
  | .variable _, _, h => h.laid
  | .int _, ts, _ | .float _, ts, _ | .string _, ts, _ | .boolean _, ts, _ | .null _, ts, _
  | .enum _, ts, _ => .nil ts
  | .list ⟨_, _⟩, _, h => by
    rw [Value.variables_list]
    exact Laid.variables_of_values h.laid_children
  | .object ⟨_, _⟩, _, h => by
    rw [Value.variables_object]
    exact Laid.variables_of_fields h.laid_children

theorem Laid.variables_of_values : ∀ {vs : List Value} {ts : List Token}, Laid (vs.map value) ts →
    Laid ((vs.flatMap Value.variables).map fun x => .value (.variable x)) ts
  | [], ts, _ => .nil ts
  | _ :: _, _, .cons gap h hs => by
    rw [List.flatMap_cons, List.map_append]
    exact (h.laid_variables.append_left gap).append hs.variables_of_values

theorem Laid.variables_of_fields :
    ∀ {fs : List ObjectField} {ts : List Token}, Laid (fs.map objectField) ts →
      Laid ((fs.flatMap ObjectField.variables).map fun x => .value (.variable x)) ts
  | [], ts, _ => .nil ts
  | ⟨_, _, _⟩ :: _, _, .cons gap h hs => by
    rw [List.flatMap_cons, List.map_append]
    refine Laid.append (Laid.append_left gap ?_) hs.variables_of_fields
    cases h.laid_children with
    | cons _ _ hvalue =>
      cases hvalue with
      | cons gap hvalue _ =>
        exact (hvalue.laid_variables.append_left gap).append_right _ |>.append_left _

end

end Node

section ConstantValues
variable {s : Source} {c d : Cursor} {v : Value} {t : Token} {limit : Nat}

theorem Rule.ne_startOfText_of_value {isConst : Bool} (hv : value isConst limit c = .ok (v, d)) :
    c.current.kind ≠ .startOfText := by
  obtain ⟨⟨kind, text, span⟩, rest, stop⟩ := c
  rintro rfl
  cases limit <;> cases hv

theorem Source.Reaches.pairwise_variables (h : s.Reaches c)
    (hv : Rule.value false limit c = .ok (v, d)) :
    v.variables.Pairwise fun x y => x.span.stop ≤ y.span.start := by
  have hstart := Rule.ne_startOfText_of_value hv
  obtain ⟨bound, hbound⟩ := h.within hstart
  obtain ⟨ts, hpasses, hlaid⟩ := Rule.lays_value false hbound v d hv
  cases hlaid with
  | cons gap hplaced hnil =>
    have hordered := (h.ordered hstart hpasses).of_append.1.of_append.2.1
    exact List.pairwise_map.mp (hplaced.laid_variables.pairwise hordered)

theorem Token.eq_dollar_of_scan {offset : Nat} {cs rest : List Char}
    (h : scan offset cs = .ok (t, rest)) (ht : t.kind = .dollar) :
    t = ⟨.dollar, none, ⟨t.span.start, t.span.start + 1⟩⟩ := by
  have he : t.isEnd = false := by simp [Token.isEnd, ht]
  obtain ⟨gap, lex, -, -, -, hspan, hwritten, -⟩ := scan_written h he
  obtain ⟨l, span, rfl⟩ : ∃ (l : Lexeme) (s : Span), t = ⟨l.1, l.2, s⟩ := ⟨t.lexeme, t.span, rfl⟩
  obtain rfl : span = _ := hspan
  change l.Written lex at hwritten
  cases hwritten with
  | mark hmark =>
    obtain rfl := ht
    simp [utf8Size_eq_one (Token.Kind.ascii_of_ofChar? hmark)]
  | number => split_ifs at ht
  | spread | string | blockString | name => cases ht

/-- **A constant value is a value without variables.** Where a value with variables stands, no constant
value is read: the reading fails at the dollar sign of the first of them. -/
theorem Source.Reaches.constant_value (h : s.Reaches c) (limit : Nat) (v : Value) (d : Cursor) :
    (Rule.value true limit c = .ok (v, d) ↔
      Rule.value false limit c = .ok (v, d) ∧ v.isConst = true) ∧
    (Rule.value false limit c = .ok (v, d) → v.isConst = false →
      ∃ x xs, v.variables = x :: xs ∧ (∀ y ∈ xs, x.span.stop ≤ y.span.start) ∧
        Rule.value true limit c = .error
          (.unexpected .constantValue ⟨.dollar, none, ⟨x.span.start, x.span.start + 1⟩⟩)) := by
  have hrestricts := Rule.restricts_value limit c
  refine ⟨⟨fun hconst => ?_, fun ⟨hv, hnone⟩ => hrestricts.same hv (v.isConst_iff.mp hnone)⟩,
    fun hv hsome => ?_⟩
  · cases hany : Rule.value false limit c with
    | error e =>
      obtain ⟨e', he'⟩ := hrestricts.error hany
      cases he'.symm.trans hconst
    | ok p =>
      obtain ⟨w, e⟩ := p
      cases hw : w.variables with
      | nil =>
        cases (hrestricts.same hany hw).symm.trans hconst
        exact ⟨rfl, v.isConst_iff.mpr hw⟩
      | cons x xs =>
        obtain ⟨t, -, -, ht⟩ := hrestricts.refused hany hw
        cases ht.symm.trans hconst
  · cases hx : v.variables with
    | nil =>
      rw [v.isConst_iff.mpr hx] at hsome
      cases hsome
    | cons x xs =>
      have hpairwise := h.pairwise_variables hv
      rw [hx, List.pairwise_cons] at hpairwise
      obtain ⟨t, hkind, hspan, ht⟩ := hrestricts.refused hv hx
      -- the token that is refused was read from the text, and so it ends where a dollar sign does
      obtain ⟨e, he, rfl⟩ := (Rule.forward_value true limit c).unexpected ht
      have hne : e.current.kind ≠ .startOfText := by rw [hkind]; exact nofun
      obtain ⟨offset, cs, rest, hscan⟩ := Source.Reaches.scan_current (h.trans he) hne
      rw [Token.eq_dollar_of_scan hscan hkind, hspan] at ht
      exact ⟨x, xs, rfl, hpairwise.1, ht⟩

/-- The first variable in a list is the one in its object. -/
theorem constant_value_list : ∃ c d v, Source.Reaches ⟨"[\x7ba: $b\x7d $c]", none⟩ c ∧
    Rule.value false 3 c = .ok (v, d) ∧ v.isConst = false ∧
      Rule.value true 3 c = .error (.unexpected .constantValue ⟨.dollar, none, ⟨5, 6⟩⟩) := by
  have hadvance : Rule.advance ⟨.startOfText, .ofSource ⟨"[\x7ba: $b\x7d $c]", none⟩, 0⟩ = .ok ((),
      ⟨⟨.leftBracket, none, ⟨0, 1⟩⟩, .token ⟨.leftBrace, none, ⟨1, 2⟩⟩
        (.token ⟨.name, some "a", ⟨2, 3⟩⟩ (.token ⟨.colon, none, ⟨3, 4⟩⟩
        (.token ⟨.dollar, none, ⟨5, 6⟩⟩ (.token ⟨.name, some "b", ⟨6, 7⟩⟩
        (.token ⟨.rightBrace, none, ⟨7, 8⟩⟩ (.token ⟨.dollar, none, ⟨9, 10⟩⟩
        (.token ⟨.name, some "c", ⟨10, 11⟩⟩ (.token ⟨.rightBracket, none, ⟨11, 12⟩⟩
        (.finish (.endOfText 12)))))))))), 0⟩) := rfl
  obtain ⟨_, hvalue⟩ := Source.Reaches.constant_value (.single hadvance) 3
    (.list ⟨[.object ⟨[⟨⟨"a", ⟨2, 3⟩⟩, .variable ⟨⟨"b", ⟨6, 7⟩⟩, ⟨5, 7⟩⟩, ⟨2, 7⟩⟩], ⟨1, 8⟩⟩,
      .variable ⟨⟨"c", ⟨10, 11⟩⟩, ⟨9, 11⟩⟩], ⟨0, 12⟩⟩)
    ⟨.endOfText 12, .finish (.endOfText 12), 12⟩
  obtain ⟨x, xs, hx, -, herror⟩ := hvalue rfl rfl
  cases hx
  exact ⟨_, _, _, .single hadvance, rfl, rfl, herror⟩

end ConstantValues

end QueryDocs
