import QueryDocs.Grammar.Value
import QueryDocs.Proofs.Document.Shape
import QueryDocs.Proofs.Grammar.Repetition

/-! # What the rules for values and types read -/

namespace QueryDocs.Rule

open Lexeme (mark word ofOption)

section Values
variable {φ : Nat → Nat} (hφ : Monotone φ) {l limit : Nat} {c : Cursor} (hc : c.Within l)
include hφ hc

theorem reads_variableUse :
    Reads φ limit variableUse variableUse c
      (Spelled (fun v => [mark .dollar, word v.name.text]) fun _ => True) := by
  refine Reads.start ?_
  refine Reads.bind hc (reads_expect hc rfl) (fun _ d _ hd => ?_) fun _ _ =>
    ⟨[word "a"], ⟨⟨"a", .empty 0⟩, .empty 0⟩, by decide, rfl, trivial⟩
  refine Reads.bind hd (reads_name hd) (fun n e _ he => ?_) fun n _ =>
    ⟨[], ⟨n, .empty 0⟩, rfl, rfl, trivial⟩
  exact Reads.spanFrom hφ fun _ => .pure ⟨rfl, trivial⟩ rfl

omit hφ in
theorem reads_stringValue (hs : isString c.current = true) :
    Reads φ limit stringValue stringValue c (Spelled (fun v => [v.lexeme]) fun _ => True) := by
  refine Reads.get (fun c' h => by rw [h]) ?_
  obtain ⟨he, hlexeme⟩ : c.current.isEnd = false ∧ c.current.lexeme =
      StringValue.lexeme ⟨c.current.text, c.current.kind == .blockString, c.current.span⟩ := by
    have hv := hc.valid
    revert hs hv
    generalize c.current = t
    obtain ⟨kind, value, span⟩ := t
    intro hs hv
    have hkind : kind = .string ∨ kind = .blockString := by simpa [isString] using hs
    rcases hkind with rfl | rfl <;> rcases value with _ | v <;>
      first | exact ⟨rfl, rfl⟩ | cases hv rfl
  refine Reads.advance hc he fun d _ _ => .pure ⟨by rw [hlexeme], trivial⟩ ?_
  rw [relabel_move_string]
  rfl

theorem reads_objectField {isConst : Bool} {r r' : Rule Value}
    (hr : ∀ c : Cursor, c.Within l →
      Reads φ limit r r' c (Spelled Value.lexemes (Value.Shaped isConst))) :
    Reads φ limit (objectField r) (objectField r') c
      (Spelled ObjectField.lexemes fun f => f.value.Shaped isConst) := by
  have hshape : (Value.enum ⟨"a", .empty 0⟩).Shaped isConst := by
    simp [Value.Shaped, reservedValues]
  refine Reads.start ?_
  refine Reads.bind hc (reads_name hc) (fun n d _ hd => ?_) fun n _ =>
    ⟨[mark .colon, word "a"], ⟨n, .enum ⟨"a", .empty 0⟩, .empty 0⟩, by decide, rfl, hshape⟩
  refine Reads.bind hd (reads_expect hd rfl) (fun _ e _ he => ?_) fun _ _ =>
    ⟨[word "a"], ⟨n, .enum ⟨"a", .empty 0⟩, .empty 0⟩, by decide, rfl, hshape⟩
  refine Reads.bind he (hr e he) (fun v _ hv _ => ?_) fun v hv =>
    ⟨[], ⟨n, v, .empty 0⟩, rfl, by simp [ObjectField.lexemes], hv⟩
  exact Reads.spanFrom hφ fun _ => .pure ⟨by simp [ObjectField.lexemes], hv⟩ rfl

omit hφ hc in
theorem lexemes_value_ne_nil (v : Value) : v.lexemes ≠ [] := by
  cases v with
  | list v => cases v; simp
  | object v => cases v; simp
  | _ => simp [Value.lexemes]

omit hφ hc in
theorem lexemes_ofWord (isConst : Bool) (text : String) (span : Span) :
    Spelled Value.lexemes (Value.Shaped isConst) (ofWord text span) [word text] := by
  unfold ofWord
  split_ifs with h1 h2 h3
  · exact ⟨by rw [h1]; rfl, trivial⟩
  · exact ⟨by rw [h2]; rfl, trivial⟩
  · exact ⟨by rw [h3]; rfl, trivial⟩
  · exact ⟨rfl, by simp [Value.Shaped, reservedValues, h1, h2, h3]⟩

omit hφ hc in
theorem relabel_ofWord (m : Relabeling) (text : String) (span : Span) :
    relabel m (ofWord text span) = ofWord text (relabel m span) := by
  unfold ofWord
  split_ifs <;> rfl

/-- **A value is read as it is written.** -/
theorem reads_value (isConst : Bool) :
    Reads φ limit (value isConst l) (value isConst limit) c
      (Spelled Value.lexemes (Value.Shaped isConst)) := by
  induction l generalizing limit c with
  | zero => exact absurd hc.bound (Nat.not_lt_zero _)
  | succ l ih =>
    have hstep : ∀ limit, Reads φ (limit + 1) (value isConst (l + 1)) (value isConst (limit + 1)) c
        (Spelled Value.lexemes (Value.Shaped isConst)) := by
      intro limit
      have hsample : (Value.enum ⟨"a", .empty 0⟩).Shaped isConst := by
        simp [Value.Shaped, reservedValues]
      have hfail : Completable (Spelled Value.lexemes (Value.Shaped isConst)) [] :=
        ⟨[word "a"], .enum ⟨"a", .empty 0⟩, by decide, rfl, hsample⟩
      unfold value
      refine Reads.get (fun c' h => by rw [h]) ?_
      simp only [Token.kind_move, Token.text_move, Token.span_move]
      have hpos : ∀ (v : Value), v.Shaped isConst → v.lexemes ≠ [] := fun v _ =>
        lexemes_value_ne_nil v
      cases hk : c.current.kind <;> simp only <;> try exact .fail hfail
      case dollar =>
        cases isConst with
        | true => exact .fail hfail
        | false =>
          refine Reads.bind hc (reads_variableUse hφ hc) (fun v _ _ _ => .pure ⟨rfl, rfl⟩ rfl)
            fun v _ => ⟨[], .variable v, rfl, rfl, rfl⟩
      case leftBracket =>
        have he := isEnd_of_isMark rfl hk
        refine Reads.advance_succ hc he fun d hp _ => ?_
        have hd : d.Within l := hc.pred hp (by simp)
        rw [lexeme_eq_mark (hc.valid he) rfl hk]
        refine Reads.bind hd (reads_upTo rfl (fun _ hc => ih hc) hpos hd) (fun vs _ hvs _ => ?_)
          fun vs hvs => ⟨[], .list ⟨vs, .empty 0⟩, rfl, by simp, by simpa using hvs⟩
        exact Reads.spanFrom hφ fun _ => .pure ⟨by simp, by simpa using hvs⟩ (by rw [relabel_list])
      case leftBrace =>
        have he := isEnd_of_isMark rfl hk
        refine Reads.advance_succ hc he fun d hp _ => ?_
        have hd : d.Within l := hc.pred hp (by simp)
        rw [lexeme_eq_mark (hc.valid he) rfl hk]
        refine Reads.bind hd (reads_upTo rfl (fun _ hc => reads_objectField hφ hc fun _ hc => ih hc)
          (fun f _ => by simp [ObjectField.lexemes]) hd) (fun fs _ hfs _ => ?_)
          fun fs hfs => ⟨[], .object ⟨fs, .empty 0⟩, rfl, by simp, by simpa using hfs⟩
        exact Reads.spanFrom hφ fun _ => .pure ⟨by simp, by simpa using hfs⟩ (by rw [relabel_object])
      case name =>
        have he := isEnd_of_hasValue rfl hk
        refine Reads.advance hc he fun d _ _ => .pure ?_ (relabel_ofWord _ _ _)
        rw [lexeme_eq_value (hc.valid he) rfl hk]
        exact lexemes_ofWord isConst _ _
      case int =>
        have he := isEnd_of_hasValue rfl hk
        refine Reads.advance hc he fun d _ _ => .pure ⟨?_, trivial⟩ rfl
        rw [lexeme_eq_value (hc.valid he) rfl hk]
        rfl
      case float =>
        have he := isEnd_of_hasValue rfl hk
        refine Reads.advance hc he fun d _ _ => .pure ⟨?_, trivial⟩ rfl
        rw [lexeme_eq_value (hc.valid he) rfl hk]
        rfl
      all_goals
        refine Reads.bind hc (reads_stringValue hc (by simp [isString, hk]))
          (fun v _ _ _ => .pure ⟨rfl, trivial⟩ rfl) fun v _ => ⟨[], .string v, rfl, rfl, trivial⟩
    rcases limit with _ | limit
    · exact ((hstep 0).mono (Nat.zero_le 1)).zero
    · exact hstep limit

/-! ### Types -/

omit hφ in
theorem reads_namedType :
    Reads φ limit namedType namedType c (Spelled NamedType.lexemes fun _ => True) :=
  Reads.bind hc (reads_name hc) (fun _ _ _ _ => .pure ⟨rfl, trivial⟩ rfl) fun n _ =>
    ⟨[], ⟨n, .empty 0⟩, rfl, rfl, trivial⟩

/-- What stands behind the core of a reference to a type. -/
def afterCore (start : Nat) (core : TypeRef) : Rule TypeRef := do
  if ← accept .bang then return .nonNull ⟨core, ← spanFrom start⟩ else return core

theorem reads_afterCore {start : Nat} {core : TypeRef} (h : core.Shaped)
    (hn : ∀ s, (TypeRef.nonNull ⟨core, s⟩).Shaped) :
    Reads φ limit (afterCore start core) (afterCore (φ start) (relabel (.move φ) core)) c
      fun t ls => Spelled TypeRef.lexemes TypeRef.Shaped t (core.lexemes ++ ls) :=
  Reads.accept hc rfl
    (fun _ _ _ => Reads.spanFrom hφ fun s => .pure ⟨by simp [TypeRef.lexemes], hn s⟩ rfl)
    fun _ => .pure ⟨by simp, h⟩ rfl

theorem reads_typeRef :
    Reads φ limit (typeRef l) (typeRef limit) c (Spelled TypeRef.lexemes TypeRef.Shaped) := by
  induction l generalizing limit c with
  | zero => exact absurd hc.bound (Nat.not_lt_zero _)
  | succ l ih =>
    have hstep : ∀ limit, Reads φ (limit + 1) (typeRef (l + 1)) (typeRef (limit + 1)) c
        (Spelled TypeRef.lexemes TypeRef.Shaped) := by
      intro limit
      unfold typeRef
      refine Reads.start (Reads.accept_succ hc rfl (fun d _ hp _ => ?_) fun _ => ?_)
      · have hd : d.Within l := hc.pred hp (by simp)
        simp only [if_true, pure_bind]
        refine Reads.bind hd (ih hd) (fun t e ht he => ?_) fun t ht =>
          ⟨[mark .rightBracket], .list ⟨t, .empty 0⟩, by decide, rfl, ht⟩
        refine Reads.bind he (reads_expect he rfl) (fun _ f _ hf => ?_) fun _ _ =>
          ⟨[], .list ⟨t, .empty 0⟩, rfl, by simp [TypeRef.lexemes], ht⟩
        refine Reads.spanFrom hφ fun s => ?_
        have hcore : (TypeRef.list ⟨t, s⟩).Shaped := ht
        refine (reads_afterCore hφ hf hcore fun _ => ht).imp fun u ls hu => ?_
        simpa [TypeRef.lexemes] using hu
      · simp only [Bool.false_eq_true, if_false, pure_bind]
        refine Reads.bind hc (reads_namedType hc) (fun t d _ hd => ?_) fun t _ =>
          ⟨[], .named t, rfl, by simp [TypeRef.lexemes], trivial⟩
        have hcore : (TypeRef.named t).Shaped := trivial
        exact reads_afterCore hφ hd hcore fun _ => trivial
    rcases limit with _ | limit
    · exact ((hstep 0).mono (Nat.zero_le 1)).zero
    · exact hstep limit

omit hφ hc in
theorem sample_value (isConst : Bool) :
    Sample Value.lexemes (Value.Shaped isConst) (.enum ⟨"a", .empty 0⟩) :=
  ⟨by simp [Value.Shaped, reservedValues], by decide⟩

/-- What a node leaves out it is read without. -/
theorem reads_defaultValue :
    Reads φ limit (defaultValue l) (defaultValue limit) c
      (Spelled defaultLexemes fun v => ∀ x ∈ v, x.Shaped true) := by
  refine Reads.accept hc rfl (fun _ d hd => ?_) fun _ => .pure ⟨rfl, by simp⟩ rfl
  refine Reads.bind hd (reads_value hφ hd true) (fun v _ hv _ => .pure ⟨?_, ?_⟩ rfl) fun v hv =>
    ⟨[], some v, rfl, ?_, ?_⟩
  · simp [defaultLexemes, ofOption]
  · simpa using hv
  · simp [defaultLexemes, ofOption]
  · simpa using hv

end Values

end QueryDocs.Rule
