import QueryDocs.Parser.Read
import QueryDocs.Proofs.Parser.Executable

/-! # Definitions read by a parser

Each rule of a parser for a definition of a type or a directive, and for a definition of any kind, comes to an
end, takes a token, and gives what the rule of the same name over a stream gives. A rule for a definition
checks the word again by which it has been chosen, and finds it (`Parser.mirrors_word`). -/

namespace QueryDocs.Parser

open Rule (isString continuesInterfaces)

theorem isWord_eq {t : Token} (hname : t.kind = .name) (w : String) : t.isWord w = (t.text == w) := by
  rw [Token.isWord, hname, beq_self_eq_true, Bool.true_and]

theorem isWord_of_kind {t : Token} (hname : t.kind ≠ .name) (w : String) : t.isWord w = false := by
  rw [Token.isWord, beq_eq_false_iff_ne.mpr hname, Bool.false_and]

section TypeSystem
variable {p : Parser} {c : Cursor} {l : Nat}

/-! ### Fields and arguments -/

theorem mirrors_description (hp : At l p c) : Mirrors 0 description Rule.description p c :=
  mirrors_optional hp fun hs => mirrors_stringValue hp hs

theorem mirrors_startOf (d : Option StringValue) (hp : At l p c) :
    Mirrors 0 (startOf d) (Rule.startOf d) p c := by
  cases d with
  | none => exact mirrors_start hp
  | some d => exact .pure hp _

theorem mirrors_inputValue (hp : At l p c) : Mirrors 1 inputValue (Rule.inputValue l) p c := by
  refine .after hp (mirrors_description hp) fun description _ _ h₁ => ?_
  refine .after h₁ (mirrors_startOf description h₁) fun start _ _ h₂ => ?_
  refine .bind h₂ (mirrors_name h₂) fun name _ _ h₃ => ?_
  refine .after h₃ (mirrors_expect h₃ (by decide)) fun _ _ _ h₄ => ?_
  refine .after h₄ (mirrors_typeRef h₄) fun type _ _ h₅ => ?_
  refine .after h₅ (mirrors_defaultValue h₅) fun default _ _ h₆ => ?_
  exact .spanned h₆ (mirrors_directives true h₆)

theorem mirrors_declaredArguments (hp : At l p c) :
    Mirrors 0 declaredArguments (Rule.declaredArguments l) p c :=
  mirrors_optionalMany mirrors_inputValue (by decide) (by decide) hp

theorem mirrors_fieldDefinition (hp : At l p c) :
    Mirrors 1 fieldDefinition (Rule.fieldDefinition l) p c := by
  refine .after hp (mirrors_description hp) fun description _ _ h₁ => ?_
  refine .after h₁ (mirrors_startOf description h₁) fun start _ _ h₂ => ?_
  refine .bind h₂ (mirrors_name h₂) fun name _ _ h₃ => ?_
  refine .after h₃ (mirrors_declaredArguments h₃) fun arguments _ _ h₄ => ?_
  refine .after h₄ (mirrors_expect h₄ (by decide)) fun _ _ _ h₅ => ?_
  refine .after h₅ (mirrors_typeRef h₅) fun type _ _ h₆ => ?_
  exact .spanned h₆ (mirrors_directives true h₆)

theorem mirrors_enumValue (hp : At l p c) : Mirrors 1 enumValue (Rule.enumValue l) p c := by
  refine .after hp (mirrors_description hp) fun description _ _ h₁ => ?_
  refine .after h₁ (mirrors_startOf description h₁) fun start _ _ h₂ => ?_
  refine .ifToken h₂ (fun _ => .fail h₂ _) fun _ => ?_
  refine .bind h₂ (mirrors_name h₂) fun name _ _ h₃ => ?_
  exact .spanned h₃ (mirrors_directives true h₃)

/-! ### Types -/

theorem mirrors_interfaces (hp : At l p c) : Mirrors 0 interfaces (Rule.interfaces l) p c := by
  refine .ifToken hp (fun hword => ?_) fun _ => .pure hp _
  refine .after hp (mirrors_advance hp (isEnd_of_word hword)) fun _ _ _ h₁ => ?_
  refine .after h₁ (mirrors_namedType h₁) fun first _ _ h₂ => ?_
  exact .map h₂ (mirrors_repeatWhile (repeats_loop _) (fun hq _ => mirrors_namedType hq) le_rfl h₂)

theorem mirrors_unionMembers (hp : At l p c) : Mirrors 0 unionMembers (Rule.unionMembers l) p c := by
  refine .accept hp (by decide) (fun _ _ h₁ => ?_) (.pure hp _)
  refine .after h₁ (mirrors_accept h₁ (by decide)) fun _ _ _ h₂ => ?_
  exact (mirrors_separated mirrors_namedType (by decide) h₂).zero

variable (n : Nat) (d : Option StringValue)

theorem mirrors_scalar (hp : At l p c) (hw : p.current.isWord "scalar" = true) :
    Mirrors 1 (scalar n d) (Rule.scalar l n d) p c := by
  refine .bind hp (mirrors_word hp hw) fun _ _ _ h₁ => ?_
  refine .after h₁ (mirrors_name h₁) fun name _ _ h₂ => ?_
  exact .spanned h₂ (mirrors_directives true h₂)

theorem mirrors_composite {w : String} (hp : At l p c) (hw : p.current.isWord w = true) :
    Mirrors 1 (composite w n d) (Rule.composite l n d) p c := by
  refine .bind hp (mirrors_word hp hw) fun _ _ _ h₁ => ?_
  refine .after h₁ (mirrors_name h₁) fun name _ _ h₂ => ?_
  refine .after h₂ (mirrors_interfaces h₂) fun interfaces _ _ h₃ => ?_
  refine .after h₃ (mirrors_directives true h₃) fun directives _ _ h₄ => ?_
  exact .spanned h₄ (mirrors_optionalMany mirrors_fieldDefinition (by decide) (by decide) h₄)

section Membered
variable {α β : Type} {make : Option StringValue → Name → List Directive → α → Span → β}
  {members : Action α} {members' : Rule α}

theorem mirrors_membered {w : String} (hmembers : ∀ {q e}, At l q e → Mirrors 0 members members' q e)
    (hp : At l p c) (hw : p.current.isWord w = true) :
    Mirrors 1 (membered make w members n d) (Rule.membered make members' l n d) p c := by
  refine .bind hp (mirrors_word hp hw) fun _ _ _ h₁ => ?_
  refine .after h₁ (mirrors_name h₁) fun name _ _ h₂ => ?_
  refine .after h₂ (mirrors_directives true h₂) fun directives _ _ h₃ => ?_
  exact .spanned h₃ (hmembers h₃)

end Membered

theorem mirrors_union (hp : At l p c) (hw : p.current.isWord "union" = true) :
    Mirrors 1 (union n d) (Rule.union l n d) p c :=
  mirrors_membered n d mirrors_unionMembers hp hw

theorem mirrors_enum (hp : At l p c) (hw : p.current.isWord "enum" = true) :
    Mirrors 1 (enum n d) (Rule.enum l n d) p c :=
  mirrors_membered n d (mirrors_optionalMany mirrors_enumValue (by decide) (by decide)) hp hw

theorem mirrors_input (hp : At l p c) (hw : p.current.isWord "input" = true) :
    Mirrors 1 (input n d) (Rule.input l n d) p c :=
  mirrors_membered n d (mirrors_optionalMany mirrors_inputValue (by decide) (by decide)) hp hw

theorem mirrors_typeDefinition (hp : At l p c) :
    Mirrors 1 (typeDefinition n d) (Rule.typeDefinition l n d) p c := by
  refine .get ?_
  rw [hp.agree.current]
  dsimp only
  by_cases hname : p.current.kind = .name
  · have hword : ∀ {w}, p.current.text = w → p.current.isWord w = true := fun h => by
      rw [isWord_eq hname, h, beq_self_eq_true]
    rw [if_pos (by rw [hname]; rfl)]
    simp only [isWord_eq hname, beq_iff_eq]
    split
    case h_1 h =>
      rw [if_pos h]
      exact .map hp (mirrors_scalar n d hp (hword h))
    case h_2 h | h_3 h =>
      simp only [h, String.reduceEq, if_false, if_true]
      exact .map hp (mirrors_composite n d hp (hword h))
    case h_4 h =>
      simp only [h, String.reduceEq, if_false, if_true]
      exact .map hp (mirrors_union n d hp (hword h))
    case h_5 h =>
      simp only [h, String.reduceEq, if_false, if_true]
      exact .map hp (mirrors_enum n d hp (hword h))
    case h_6 h =>
      simp only [h, String.reduceEq, if_false, if_true]
      exact .map hp (mirrors_input n d hp (hword h))
    case h_7 h₁ h₂ h₃ h₄ h₅ h₆ =>
      rw [if_neg h₁, if_neg h₂, if_neg h₃, if_neg h₄, if_neg h₅, if_neg h₆]
      exact .fail hp _
  · simp only [isWord_of_kind hname, beq_eq_false_iff_ne.mpr hname, Bool.false_eq_true, if_false]
    exact .fail hp _

theorem mirrors_extension (hp : At l p c) : Mirrors 1 extension (Rule.extension l) p c := by
  refine .after hp (mirrors_start hp) fun outer _ _ h₁ => ?_
  refine .bind h₁ (mirrors_expectWord h₁ _) fun _ _ _ h₂ => ?_
  refine .after h₂ (mirrors_start h₂) fun inner _ _ h₃ => ?_
  exact (Mirrors.spanned h₃ (mirrors_typeDefinition inner none h₃)).zero

/-! ### Schemas and directives -/

theorem mirrors_rootOperationType (hp : At l p c) :
    Mirrors 1 rootOperationType Rule.rootOperationType p c := by
  refine .after hp (mirrors_start hp) fun start _ _ h₁ => ?_
  refine .bind h₁ (mirrors_name h₁) fun keyword _ _ h₂ => ?_
  refine .after h₂ (mirrors_expect h₂ (by decide)) fun _ _ _ h₃ => ?_
  exact (Mirrors.spanned h₃ (mirrors_namedType h₃)).zero

theorem mirrors_schema (hp : At l p c) (hw : p.current.isWord "schema" = true) :
    Mirrors 1 (schema n d) (Rule.schema l n d) p c := by
  refine .bind hp (mirrors_word hp hw) fun _ _ _ h₁ => ?_
  refine .after h₁ (mirrors_directives true h₁) fun directives _ _ h₂ => ?_
  exact (Mirrors.spanned h₂ (mirrors_many mirrors_rootOperationType (by decide) (by decide) h₂)).zero

/-- What stands behind the arguments of a directive and the word that may follow them. -/
theorem mirrors_places {α : Type} {k : List DirectiveLocation → Action α}
    {k' : List DirectiveLocation → Rule α} (hp : At l p c)
    (hk : ∀ places q e, At l q e → Mirrors 0 (k places) (k' places) q e) :
    Mirrors 0
      (do
        expectWord "on"
        let _ ← accept .pipe
        let places ← separated .pipe directiveLocation
        k places)
      (do
        Rule.expectWord "on"
        let _ ← Rule.accept .pipe
        let places ← Rule.separated l .pipe Rule.directiveLocation
        k' places) p c := by
  refine .after hp (mirrors_expectWord hp _) fun _ _ _ h₁ => ?_
  refine .after h₁ (mirrors_accept h₁ (by decide)) fun _ _ _ h₂ => ?_
  exact .after h₂ (mirrors_separated (mirrors_keyword _ _) (by decide) h₂) hk

theorem mirrors_directiveDefinition (hp : At l p c) (hw : p.current.isWord "directive" = true) :
    Mirrors 1 (directiveDefinition n d) (Rule.directiveDefinition l n d) p c := by
  refine .bind hp (mirrors_word hp hw) fun _ _ _ h₁ => ?_
  refine .after h₁ (mirrors_expect h₁ (by decide)) fun _ _ _ h₂ => ?_
  refine .after h₂ (mirrors_name h₂) fun name _ _ h₃ => ?_
  refine .after h₃ (mirrors_declaredArguments h₃) fun arguments _ _ h₄ => ?_
  have hend : ∀ (repeatable : Bool) places q e, At l q e → Mirrors 0
      (spanFrom n >>= fun s => pure (DirectiveDefinition.mk d name arguments repeatable places s))
      (Rule.spanFrom n >>= fun s => pure ⟨d, name, arguments, repeatable, places, s⟩) q e :=
    fun _ _ _ _ hq => .map hq (mirrors_spanFrom hq n)
  refine .getLeft (.getRight ?_)
  rw [h₄.agree.current]
  refine .ite (fun hrepeatable => ?_) fun _ => mirrors_places h₄ (hend _)
  exact .after h₄ (mirrors_advance h₄ (isEnd_of_word hrepeatable)) fun _ _ _ h₅ =>
    mirrors_places h₅ (hend _)

/-! ### Definitions -/

theorem mirrors_typeSystemDefinition (hp : At l p c) :
    Mirrors 1 (typeSystemDefinition d) (Rule.typeSystemDefinition l d) p c := by
  refine .after hp (mirrors_startOf d hp) fun n q e hq => .getLeft (.getRight ?_)
  rw [hq.agree.current]
  refine .ite (fun hw => ?_) fun _ => .getLeft (.ite (fun hw => ?_) fun _ => ?_)
  · exact .map hq (mirrors_schema n d hq hw)
  · exact .map hq (mirrors_directiveDefinition n d hq hw)
  · exact .map hq (mirrors_typeDefinition n d hq)

/-- No definition starts with a token that is not a name. -/
theorem mirrors_noDefinition (hp : At l p c) (hname : p.current.kind ≠ .name) :
    Mirrors 1 (fail .definition) (Rule.typeSystemDefinition l none) p c := by
  have hword : ∀ w, c.current.isWord w = false := isWord_of_kind (by rwa [hp.agree.current])
  have htype : ∀ start,
      Rule.typeDefinition l start none c = .error (.unexpected .definition c.current) := by
    intro start
    change (if c.current.isWord "scalar" = true then _ else _ : Rule TypeDefinition) c = _
    simp only [hword, Bool.false_eq_true, if_false]
    rfl
  have hfail : Rule.typeSystemDefinition l none c = (Rule.fail .definition : Rule Definition) c := by
    change (if c.current.isWord "schema" = true then _ else _ : Rule Definition) c = _
    simp only [hword, Bool.false_eq_true, if_false]
    rw [Rule.bind_error (htype _)]
    rfl
  obtain ⟨y, hy, hmoves, hsame⟩ := Mirrors.fail (n := 1) (α := Definition) hp .definition
  exact ⟨y, hy, hmoves, by rwa [hfail]⟩

theorem mirrors_described (hp : At l p c) (hs : isString p.current = true) :
    Mirrors 1 (description >>= typeSystemDefinition)
      (Rule.stringValue >>= fun d => Rule.typeSystemDefinition l (some d)) p c := by
  rw [description, optional_bind]
  refine .getLeft ?_
  rw [if_pos hs]
  exact .after hp (mirrors_stringValue hp hs) fun d _ _ hq => mirrors_typeSystemDefinition (some d) hq

theorem ofKeyword?_eq_none {w : String} (hquery : w ≠ "query") (hmutation : w ≠ "mutation")
    (hsubscription : w ≠ "subscription") : OperationType.ofKeyword? w = none := by
  rw [Option.eq_none_iff_forall_ne_some]
  intro o ho
  rw [OperationType.ofKeyword?_eq_some] at ho
  cases o with
  | query => exact hquery ho.symm
  | mutation => exact hmutation ho.symm
  | subscription => exact hsubscription ho.symm

theorem mirrors_definition (hp : At l p c) : Mirrors 1 definition (Rule.definition l) p c := by
  have hoperation : Mirrors 1 (do return Definition.operation (← operation))
      (do return Definition.operation (← Rule.operation l)) p c :=
    .map hp (mirrors_operation hp)
  refine .get ?_
  rw [hp.agree.current]
  dsimp only
  split
  next hk =>
    rw [if_pos (by rw [Rule.startsOperation, hk]; rfl)]
    exact hoperation
  next hk =>
    rw [if_neg (by simp [Rule.startsOperation, hk]), if_pos (by rw [isString, hk]; rfl)]
    exact mirrors_described hp (by rw [isString, hk]; rfl)
  next hk =>
    rw [if_neg (by simp [Rule.startsOperation, hk]), if_pos (by rw [isString, hk]; rfl)]
    exact mirrors_described hp (by rw [isString, hk]; rfl)
  next hk =>
    have hstring : ¬ isString p.current = true := by simp [isString, hk]
    have hstarts : Rule.startsOperation p.current = (OperationType.ofKeyword? p.current.text).isSome := by
      rw [Rule.startsOperation, hk]
      rfl
    rw [hstarts, if_neg hstring, isWord_eq hk, isWord_eq hk]
    split
    case h_1 h | h_2 h | h_3 h =>
      rw [h]
      exact hoperation
    next h =>
      rw [h]
      exact .map hp (mirrors_fragment hp)
    next h =>
      rw [h]
      exact .map hp (mirrors_extension hp)
    next h₁ h₂ h₃ h₄ h₅ =>
      rw [ofKeyword?_eq_none h₁ h₂ h₃, if_neg (by decide), if_neg (by simpa using h₄),
        if_neg (by simpa using h₅)]
      exact mirrors_typeSystemDefinition none hp
  next h₁ h₂ h₃ h₄ =>
    have hword : ∀ w, p.current.isWord w = false := isWord_of_kind h₄
    rw [if_neg, if_neg, hword, hword, if_neg (by simp), if_neg (by simp)]
    · exact mirrors_noDefinition hp h₄
    · simpa [isString] using ⟨h₂, h₃⟩
    · simpa [Rule.startsOperation, beq_eq_false_iff_ne.mpr h₄] using h₁

/-! ### Documents -/

theorem mirrors_definitions (hp : At l p c) :
    Mirrors 0 (loop definitionRound)
      (Rule.repeatWhile (fun t => !t.isEnd) (Rule.definition l) l) p c :=
  mirrors_repeatWhile (repeats_loop _) (fun hq _ => mirrors_definition hq) le_rfl hp

end TypeSystem

end QueryDocs.Parser
