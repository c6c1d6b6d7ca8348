import QueryDocs.Proofs.Grammar.ReadsValues
import QueryDocs.Proofs.Grammar.Takes

/-! # Values and types are read back -/

namespace QueryDocs.Rule

open Lexeme (mark word ofOption enclosed first first_append_ne)

variable {block : String → Bool} {limit : Nat} {ks : List Lexeme}

/-! ### Values -/

theorem takes_variableUse (v : Variable) :
    Takes block limit variableUse [mark .dollar, word v.name.text] v ks :=
  .start (.bind takes_expect (.spanned (takes_name v.name) rfl))

/-- A string in double quotes denotes what the block string does that it stands for. -/
theorem takes_stringValue (v : StringValue) :
    isString (head block (v.lexeme :: ks)) = true ∧
      Takes block limit stringValue [v.lexeme] v ks := by
  obtain ⟨text, b, s⟩ := v
  cases b with
  | false => exact ⟨rfl, .get (.advance (.pure rfl))⟩
  | true =>
    have hhead : head block (StringValue.lexeme ⟨text, true, s⟩ :: ks) =
        ⟨if block text then .blockString else .string, some text, .empty 0⟩ := rfl
    constructor
    · rw [hhead]
      cases block text <;> rfl
    · refine .get (.advance (.pure ?_))
      change _ = (⟨(head block (StringValue.lexeme ⟨text, true, s⟩ :: ks)).text,
        (head block (StringValue.lexeme ⟨text, true, s⟩ :: ks)).kind == .blockString,
        (head block (StringValue.lexeme ⟨text, true, s⟩ :: ks)).span⟩ : StringValue)
      rw [hhead]
      change (⟨text, true && block text, .empty 0⟩ : StringValue) = _
      cases block text <;> rfl

theorem takes_objectField {item : Rule Value} {f : ObjectField}
    (h : ∀ ks, Takes block limit item f.value.lexemes f.value ks) :
    Takes block limit (objectField item) f.lexemes f ks :=
  .start (.bind (takes_name f.name) (.bind takes_expect (.spanned (h ks) rfl)))

theorem first_value_ne (v : Value) {k : Token.Kind} (hk : k ∈ [.rightBracket, .rightBrace]) :
    first (v.lexemes ++ ks) ≠ k := by
  have h : first (v.lexemes ++ ks) ∉ [.rightBracket, .rightBrace] := by
    cases v with
    | string v =>
      obtain ⟨text, b, s⟩ := v
      cases b <;> simp [Value.lexemes, StringValue.lexeme]
    | list l =>
      cases l
      simp
    | object o =>
      cases o
      simp
    | _ => simp [Value.lexemes]
  exact fun he => h (he ▸ hk)

/-- **A value is read back**, whatever stands behind it. -/
theorem takes_value (isConst : Bool) : ∀ {limit : Nat} {v : Value} {ks : List Lexeme},
    v.Shaped isConst → Takes block limit (value isConst limit) v.lexemes v ks := by
  intro limit
  induction limit with
  | zero => exact fun _ hlen => absurd hlen (Nat.not_lt_zero _)
  | succ limit ih =>
    intro v ks hv
    refine .get ?_
    cases v with
    | list l =>
      obtain ⟨vs, s⟩ := l
      rw [Value.shaped_list] at hv
      rw [Value.lexemes_list]
      refine .advance_succ (.spanned (takes_upTo (F := fun _ => True) rfl
        (fun v hmem ks _ => ih (hv v hmem)) (fun v _ ks => ⟨first_value_ne v (by simp), trivial⟩)
        fun _ => trivial) (relabel_list _ vs s))
    | object o =>
      obtain ⟨fs, s⟩ := o
      rw [Value.shaped_object] at hv
      rw [Value.lexemes_object]
      refine .advance_succ (.spanned (takes_upTo (F := fun _ => True) rfl
        (fun f hmem ks _ => takes_objectField fun _ => ih (hv f hmem))
        (fun f _ ks => ⟨by simp [ObjectField.lexemes], trivial⟩) fun _ => trivial)
        (relabel_object _ fs s))
    | «variable» v =>
      obtain rfl : isConst = false := hv
      exact .mono (.map (takes_variableUse v) rfl) le_rfl
    | string v =>
      obtain ⟨hs, h⟩ : isString (head block (v.lexeme :: ks)) = true ∧
          Takes block (limit + 1) stringValue [v.lexeme] v ks := takes_stringValue v
      have hkind : (head block (v.lexeme :: ks)).kind = .string ∨
          (head block (v.lexeme :: ks)).kind = .blockString := by simpa [isString] using hs
      have h : Takes block (limit + 1) (stringValue >>= fun v => Pure.pure (Value.string v))
        [v.lexeme] (.string v) ks := .map h rfl
      rw [Value.lexemes, List.singleton_append]
      rcases hkind with hkind | hkind
      all_goals
        simp only [hkind]
        exact h
    | int v => exact .advance (.pure rfl)
    | float v => exact .advance (.pure rfl)
    | null s => exact .advance (.pure rfl)
    | boolean v =>
      obtain ⟨b, s⟩ := v
      cases b <;> exact .advance (.pure rfl)
    | enum v =>
      have hv : v.text ≠ "true" ∧ v.text ≠ "false" ∧ v.text ≠ "null" := by
        simpa [Value.Shaped, reservedValues] using hv
      refine .advance (.pure ?_)
      change _ = ofWord v.text (.empty 0)
      rw [ofWord, if_neg hv.1, if_neg hv.2.1, if_neg hv.2.2]
      rfl

/-! ### Types -/

theorem takes_namedType (t : NamedType) : Takes block limit namedType t.lexemes t ks :=
  .map (takes_name t.name) rfl

theorem takes_afterCore {core : TypeRef} (hk : first ks ≠ .bang) :
    Takes block limit (afterCore 0 (relabel (.plain block) core)) [] core ks :=
  .decline (by simpa [kind_head_mark (k := .bang) rfl] using hk) (.pure rfl)

theorem takes_afterCore_bang {core : TypeRef} (s : Span) :
    Takes block limit (afterCore 0 (relabel (.plain block) core)) [mark .bang] (.nonNull ⟨core, s⟩)
      ks :=
  .accept (.spanFrom (.pure rfl))

/-- A type referred to by its name, with what follows. -/
theorem Takes.named {t : TypeRef} {ms : List Lexeme} (n : NamedType)
    (h : Takes block (limit + 1) (afterCore 0 (relabel (.plain block) (TypeRef.named n))) ms t ks) :
    Takes block (limit + 1) (typeRef (limit + 1)) (n.lexemes ++ ms) t ks := by
  unfold typeRef
  refine .start (.decline (by simp [NamedType.lexemes]) ?_)
  simp only [Bool.false_eq_true, if_false, pure_bind]
  exact Takes.bind (takes_namedType n) h

/-- A type of lists, with what follows. -/
theorem Takes.list {t u : TypeRef} {ms : List Lexeme} (s : Span)
    (hitem : ∀ ks, Takes block limit (typeRef limit) t.lexemes t (mark .rightBracket :: ks))
    (h : Takes block limit (afterCore 0 (relabel (.plain block) (TypeRef.list ⟨t, s⟩))) ms u ks) :
    Takes block (limit + 1) (typeRef (limit + 1)) ((TypeRef.list ⟨t, s⟩).lexemes ++ ms) u ks := by
  unfold typeRef
  rw [TypeRef.lexemes, List.append_assoc]
  refine .start (.accept_succ ?_)
  simp only [if_true, pure_bind]
  exact Takes.bind (hitem _) (.bind takes_expect (.spanFrom h))

/-- **A reference to a type is read back** where no exclamation mark follows. -/
theorem takes_typeRef : ∀ {limit : Nat} {t : TypeRef} {ks : List Lexeme}, t.Shaped →
    first ks ≠ .bang → Takes block limit (typeRef limit) t.lexemes t ks := by
  intro limit
  induction limit with
  | zero => exact fun _ _ hlen => absurd hlen (Nat.not_lt_zero _)
  | succ limit ih =>
    intro t ks ht hk
    match t, ht with
    | .named n, _ =>
      rw [← List.append_nil (TypeRef.lexemes _)]
      exact .named n (takes_afterCore hk)
    | .list ⟨t, s⟩, ht =>
      rw [← List.append_nil (TypeRef.lexemes _)]
      exact .list s (fun _ => ih ht (by simp)) (takes_afterCore hk)
    | .nonNull ⟨.named n, s⟩, _ => exact .named n (takes_afterCore_bang s)
    | .nonNull ⟨.list ⟨t, s'⟩, s⟩, ht =>
      exact .list s' (fun _ => ih ht (by simp)) (takes_afterCore_bang s)

theorem takes_defaultValue {v : Option Value} (hv : ∀ x ∈ v, x.Shaped true)
    (hk : first ks ≠ .equals) :
    Takes block limit (defaultValue limit) (defaultLexemes v) v ks := by
  cases v with
  | none => exact .decline (by simpa [kind_head_mark (k := .equals) rfl] using hk) (.pure rfl)
  | some v => exact .accept (.map (takes_value true (hv v rfl)) rfl)

theorem first_default_ne (v : Option Value) {k : Token.Kind} (hk : k ≠ .equals) (hk' : k ≠ .endOfText) :
    first (defaultLexemes v) ≠ k := by
  cases v with
  | none => exact hk'.symm
  | some v => exact hk.symm

end QueryDocs.Rule
