import QueryDocs.Parser.Executable
import QueryDocs.Proofs.Grammar.ReadsValues
import QueryDocs.Proofs.Parser.Mirrors

/-! # Values, types, operations and fragments read by a parser

Each rule of a parser for a part of an operation or a fragment comes to an end, takes a token if it has a
result, and gives what the rule of the same name over a stream gives. Rules that call each other are by
induction on the number of tokens left: a list, an object, a type in brackets and a selection set take a
token before they go into what is nested in them. -/

namespace QueryDocs.Parser

open Rule (isString)

section Executable
variable {p : Parser} {c : Cursor} {l : Nat} (isConst : Bool)

/-! ### Values -/

theorem mirrors_variableUse (hp : At l p c) : Mirrors 1 variableUse Rule.variableUse p c := by
  refine .after hp (mirrors_start hp) fun start _ _ h₁ => ?_
  refine .bind h₁ (mirrors_expect h₁ (by decide)) fun _ _ _ h₂ => ?_
  exact (Mirrors.spanned h₂ (mirrors_name h₂)).zero

theorem isEnd_of_isString {t : Token} (h : isString t = true) : t.isEnd = false := by
  rw [isString, Bool.or_eq_true] at h
  exact h.elim (isEnd_of_kind (by decide)) (isEnd_of_kind (by decide))

theorem mirrors_stringValue (hp : At l p c) (hs : isString p.current = true) :
    Mirrors 1 stringValue Rule.stringValue p c := by
  refine .get ?_
  rw [hp.agree.current]
  simp only [hs, if_true]
  exact .map hp (mirrors_advance hp (isEnd_of_isString hs))

theorem repeats_values : Repeats (roundUntil .rightBracket (value isConst)) (values isConst) :=
  repeats_until.mpr (values.eq_1 isConst)

theorem repeats_objectFields :
    Repeats (roundUntil .rightBrace (objectField isConst)) (objectFields isConst) :=
  repeats_until.mpr (objectFields.eq_1 isConst)

/-- A field of an object, given what its value is read with. -/
theorem mirrors_field_of_value {r' : Rule Value}
    (hvalue : ∀ {q d}, At l q d → Mirrors 1 (value isConst) r' q d) (hp : At l p c) :
    Mirrors 1 (objectField isConst) (Rule.objectField r') p c := by
  rw [objectField]
  refine .after hp (mirrors_start hp) fun start _ _ h₁ => ?_
  refine .bind h₁ (mirrors_name h₁) fun name _ _ h₂ => ?_
  refine .after h₂ (mirrors_expect h₂ (by decide)) fun _ _ _ h₃ => ?_
  exact (Mirrors.spanned h₃ (hvalue h₃)).zero

theorem mirrors_value (hp : At l p c) : Mirrors 1 (value isConst) (Rule.value isConst l) p c := by
  -- the bound on the tokens left falls with each bracket, and so do the values that can be nested
  induction l generalizing p c with
  | zero => exact absurd hp.within.pos (Nat.lt_irrefl 0)
  | succ l ih =>
    rw [value, Rule.value]
    refine .get ?_
    rw [hp.agree.current]
    dsimp only
    have hadvance : ∀ {kind : Token.Kind}, kind ≠ .endOfText → p.current.kind = kind →
        Mirrors 1 advance Rule.advance p c := fun hne hk =>
      mirrors_advance hp (isEnd_of_kind hne (by simp [hk]))
    cases hk : p.current.kind <;> simp only <;> try exact .fail hp _
    case leftBracket =>
      refine .bind_pred hp (hadvance (by decide) hk) fun _ _ _ h₁ => ?_
      exact .spanned h₁ (mirrors_upTo (by decide) (repeats_values isConst) ih le_rfl h₁)
    case leftBrace =>
      refine .bind_pred hp (hadvance (by decide) hk) fun _ _ _ h₁ => ?_
      exact .spanned h₁ (mirrors_upTo (by decide) (repeats_objectFields isConst)
        (mirrors_field_of_value isConst ih) le_rfl h₁)
    case dollar => exact .ite (fun _ => .fail hp _) fun _ => .map hp (mirrors_variableUse hp)
    case string | blockString =>
      exact .map hp (mirrors_stringValue hp (by simp [isString, hk]))
    case int | float | name => exact .map hp (hadvance (by decide) hk)

theorem mirrors_values (hp : At l p c) :
    Mirrors 0 (values isConst) (Rule.upTo .rightBracket (Rule.value isConst l) l) p c :=
  mirrors_upTo (by decide) (repeats_values isConst) (mirrors_value isConst) le_rfl hp

theorem mirrors_objectField (hp : At l p c) :
    Mirrors 1 (objectField isConst) (Rule.objectField (Rule.value isConst l)) p c :=
  mirrors_field_of_value isConst (mirrors_value isConst) hp

theorem mirrors_objectFields (hp : At l p c) :
    Mirrors 0 (objectFields isConst)
      (Rule.upTo .rightBrace (Rule.objectField (Rule.value isConst l)) l) p c :=
  mirrors_upTo (by decide) (repeats_objectFields isConst) (mirrors_objectField isConst) le_rfl hp

/-! ### References to types -/

theorem mirrors_namedType (hp : At l p c) : Mirrors 1 namedType Rule.namedType p c :=
  .map hp (mirrors_name hp)

/-- A type is not null if an exclamation mark follows it. -/
theorem mirrors_afterCore (n : Nat) (core : TypeRef) (hp : At l p c) :
    Mirrors 0
      (accept .bang >>= fun b => if b = true then
        spanFrom n >>= fun s => pure (TypeRef.nonNull ⟨core, s⟩) else pure core)
      (Rule.afterCore n core) p c :=
  .accept hp (by decide) (fun _ _ hq => .map hq (mirrors_spanFrom hq n)) (.pure hp _)

theorem mirrors_typeRef (hp : At l p c) : Mirrors 1 typeRef (Rule.typeRef l) p c := by
  induction l generalizing p c with
  | zero => exact absurd hp.within.pos (Nat.lt_irrefl 0)
  | succ l ih =>
    rw [typeRef, Rule.typeRef]
    refine .after hp (mirrors_start hp) fun n q d hq => .accept_pred hq (by decide) (fun r e hr => ?_) ?_
    · simp only [if_true, pure_bind]
      refine .bind hr (ih hr) fun item _ _ h₁ => ?_
      refine .after h₁ (mirrors_expect h₁ (by decide)) fun _ _ _ h₂ => ?_
      exact .after h₂ (mirrors_spanFrom h₂ n) fun _ _ _ h₃ => mirrors_afterCore n _ h₃
    · simp only [Bool.false_eq_true, if_false, pure_bind]
      exact .bind hq (mirrors_namedType hq) fun _ _ _ hr => mirrors_afterCore n _ hr

theorem mirrors_defaultValue (hp : At l p c) : Mirrors 0 defaultValue (Rule.defaultValue l) p c :=
  .accept hp (by decide) (fun _ _ hq => (Mirrors.map hq (mirrors_value true hq)).zero) (.pure hp _)

/-! ### Arguments and directives -/

theorem mirrors_argument (hp : At l p c) :
    Mirrors 1 (argument isConst) (Rule.argument l isConst) p c := by
  refine .after hp (mirrors_start hp) fun start _ _ h₁ => ?_
  refine .bind h₁ (mirrors_name h₁) fun name _ _ h₂ => ?_
  refine .after h₂ (mirrors_expect h₂ (by decide)) fun _ _ _ h₃ => ?_
  exact (Mirrors.spanned h₃ (mirrors_value isConst h₃)).zero

theorem mirrors_arguments (hp : At l p c) :
    Mirrors 0 (arguments isConst) (Rule.arguments l isConst) p c :=
  mirrors_optionalMany (mirrors_argument isConst) (by decide) (by decide) hp

theorem mirrors_directive (hp : At l p c) :
    Mirrors 1 (directive isConst) (Rule.directive l isConst) p c := by
  refine .after hp (mirrors_start hp) fun start _ _ h₁ => ?_
  refine .bind h₁ (mirrors_expect h₁ (by decide)) fun _ _ _ h₂ => ?_
  refine .after h₂ (mirrors_name h₂) fun name _ _ h₃ => ?_
  exact .spanned h₃ (mirrors_arguments isConst h₃)

theorem mirrors_directives (hp : At l p c) :
    Mirrors 0 (directives isConst) (Rule.directives l isConst) p c :=
  mirrors_repeatWhile (repeats_loop _) (fun hq _ => mirrors_directive isConst hq) le_rfl hp

/-! ### Selections -/

theorem repeats_selections : Repeats (roundUntil .rightBrace selection) selections :=
  repeats_until.mpr selections.eq_1

section Set
variable {set' : Rule SelectionSet} (hset : ∀ {q d}, At l q d → Mirrors 1 selectionSet set' q d)
include hset

/-- What stands behind the names of a field. -/
theorem mirrors_afterNames (n : Nat) (names : Option Name × Name) (hp : At l p c) :
    Mirrors 0
      (do
        let arguments ← arguments false
        let directives ← directives false
        if ← atToken Rule.opensSet then
          let set ← selectionSet
          return ⟨names.1, names.2, arguments, directives, some set, ← spanFrom n⟩
        else return ⟨names.1, names.2, arguments, directives, none, ← spanFrom n⟩)
      (Rule.afterNames n l set' names) p c := by
  refine .after hp (mirrors_arguments false hp) fun as _ _ h₁ => ?_
  refine .after h₁ (mirrors_directives false h₁) fun ds _ _ h₂ => ?_
  rw [← optional_bind (k := fun set => spanFrom n >>= fun s =>
    pure (FieldSelection.mk names.1 names.2 as ds set s))]
  exact .spanned h₂ (mirrors_optional h₂ fun _ => hset h₂)

theorem mirrors_field_of_set (hp : At l p c) : Mirrors 1 field (Rule.field l set') p c := by
  rw [field, Rule.field]
  refine .after hp (mirrors_start hp) fun n _ _ h₁ => ?_
  refine .bind h₁ (mirrors_name h₁) fun first _ _ h₂ => .accept h₂ (by decide) (fun _ _ h₃ => ?_) ?_
  · simp only [if_true, pure_bind]
    exact .after h₃ (mirrors_name h₃) fun m _ _ h₄ => mirrors_afterNames hset n (some first, m) h₄
  · simp only [Bool.false_eq_true, if_false, pure_bind]
    exact mirrors_afterNames hset n (none, first) h₂

theorem mirrors_fragmentSelection_of_set (hp : At l p c) :
    Mirrors 1 fragmentSelection (Rule.fragmentSelection l set') p c := by
  rw [fragmentSelection, Rule.fragmentSelection]
  refine .after hp (mirrors_start hp) fun n _ _ h₁ => ?_
  refine .bind h₁ (mirrors_expect h₁ (by decide)) fun _ q d h₂ => .get ?_
  rw [h₂.agree.current]
  refine .ite (fun _ => ?_) fun _ => ?_
  · refine .after h₂ (mirrors_name h₂) fun name _ _ h₃ => ?_
    exact .spanned h₃ (mirrors_directives false h₃)
  · have hcondition : Mirrors 0 (optional (·.isWord "on") (do advance; namedType))
        (Rule.optional (·.isWord "on") (do Rule.advance; Rule.namedType)) q d :=
      mirrors_optional h₂ fun hword => .bind h₂ (mirrors_advance h₂ (isEnd_of_word hword))
        fun _ _ _ hr => (mirrors_namedType hr).zero
    refine .after h₂ hcondition fun condition _ _ h₃ => ?_
    refine .after h₃ (mirrors_directives false h₃) fun directives _ _ h₄ => ?_
    exact (Mirrors.spanned h₄ (hset h₄)).zero

theorem mirrors_selection_of_set (hp : At l p c) :
    Mirrors 1 selection (Rule.selection l set') p c := by
  rw [selection]
  exact .ifToken hp (fun _ => mirrors_fragmentSelection_of_set hset hp) fun _ =>
    .map hp (mirrors_field_of_set hset hp)

end Set

theorem mirrors_selectionSet (hp : At l p c) :
    Mirrors 1 selectionSet (Rule.selectionSet l) p c := by
  induction l generalizing p c with
  | zero => exact absurd hp.within.pos (Nat.lt_irrefl 0)
  | succ l ih =>
    have hitem : ∀ {q d}, At l q d →
        Mirrors 1 selection (Rule.selection l (Rule.selectionSet l)) q d := fun hq =>
      mirrors_selection_of_set ih hq
    rw [selectionSet, Rule.selectionSet]
    simp only [Rule.between, bind_assoc, pure_bind]
    refine .after hp (mirrors_start hp) fun start _ _ h₁ => ?_
    refine .bind_pred h₁ (mirrors_expect h₁ (by decide)) fun _ _ _ h₂ => ?_
    refine .after h₂ (hitem h₂) fun first _ _ h₃ => ?_
    exact .spanned h₃ (mirrors_upTo (by decide) repeats_selections hitem le_rfl h₃)

theorem mirrors_field (hp : At l p c) :
    Mirrors 1 field (Rule.field l (Rule.selectionSet l)) p c :=
  mirrors_field_of_set mirrors_selectionSet hp

theorem mirrors_fragmentSelection (hp : At l p c) :
    Mirrors 1 fragmentSelection (Rule.fragmentSelection l (Rule.selectionSet l)) p c :=
  mirrors_fragmentSelection_of_set mirrors_selectionSet hp

theorem mirrors_selection (hp : At l p c) :
    Mirrors 1 selection (Rule.selection l (Rule.selectionSet l)) p c :=
  mirrors_selection_of_set mirrors_selectionSet hp

theorem mirrors_selections (hp : At l p c) :
    Mirrors 0 selections (Rule.upTo .rightBrace (Rule.selection l (Rule.selectionSet l)) l) p c :=
  mirrors_upTo (by decide) repeats_selections mirrors_selection le_rfl hp

/-! ### Operations and fragments -/

theorem mirrors_variableDefinition (hp : At l p c) :
    Mirrors 1 variableDefinition (Rule.variableDefinition l) p c := by
  refine .after hp (mirrors_start hp) fun start _ _ h₁ => ?_
  refine .bind h₁ (mirrors_variableUse h₁) fun declared _ _ h₂ => ?_
  refine .after h₂ (mirrors_expect h₂ (by decide)) fun _ _ _ h₃ => ?_
  refine .after h₃ (mirrors_typeRef h₃) fun type _ _ h₄ => ?_
  refine .after h₄ (mirrors_defaultValue h₄) fun default _ _ h₅ => ?_
  exact .spanned h₅ (mirrors_directives true h₅)

theorem mirrors_operation (hp : At l p c) : Mirrors 1 operation (Rule.operation l) p c := by
  refine .after hp (mirrors_start hp) fun start _ _ h₁ => .ifToken h₁ (fun _ => ?_) fun _ => ?_
  · exact .spanned h₁ (mirrors_selectionSet h₁)
  · refine .bind h₁ (mirrors_keyword _ _ h₁) fun operation _ _ h₂ => ?_
    refine .after h₂ (mirrors_optional h₂ fun _ => mirrors_name h₂) fun title _ _ h₃ => ?_
    refine .after h₃ (mirrors_optionalMany mirrors_variableDefinition (by decide) (by decide) h₃)
      fun declared _ _ h₄ => ?_
    refine .after h₄ (mirrors_directives false h₄) fun directives _ _ h₅ => ?_
    exact (Mirrors.spanned h₅ (mirrors_selectionSet h₅)).zero

theorem mirrors_fragment (hp : At l p c) : Mirrors 1 fragment (Rule.fragment l) p c := by
  refine .after hp (mirrors_start hp) fun start _ _ h₁ => ?_
  refine .bind h₁ (mirrors_expectWord h₁ _) fun _ _ _ h₂ =>
    .ifToken h₂ (fun _ => .fail h₂ _) fun _ => ?_
  refine .after h₂ (mirrors_name h₂) fun name _ _ h₃ => ?_
  refine .after h₃ (mirrors_expectWord h₃ _) fun _ _ _ h₄ => ?_
  refine .after h₄ (mirrors_namedType h₄) fun condition _ _ h₅ => ?_
  refine .after h₅ (mirrors_directives false h₅) fun directives _ _ h₆ => ?_
  exact (Mirrors.spanned h₆ (mirrors_selectionSet h₆)).zero

end Executable

end QueryDocs.Parser
