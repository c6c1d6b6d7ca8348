import QueryDocs.Proofs.Grammar.ReadsExecutable
import QueryDocs.Proofs.Grammar.TakesValues

/-! # Operations and fragments are read back -/

namespace QueryDocs.Rule

open Lexeme (mark word ofOption enclosed first first_append_ne trailing)

variable {block : String → Bool} {limit : Nat} {ks : List Lexeme}

/-- Nothing goes on with what stands before. -/
def Loose (ks : List Lexeme) : Prop := first ks ∉ trailing

theorem Loose.ne (h : Loose ks) {k : Token.Kind} (hk : k ∈ trailing) : first ks ≠ k :=
  fun he => h (he ▸ hk)

/-! ### Arguments and directives -/

theorem takes_argument {isConst : Bool} {a : Argument} (ha : a.Shaped isConst) :
    Takes block limit (argument limit isConst) a.lexemes a ks := by
  refine .start (.bind (takes_name a.name) ?_)
  exact .bind takes_expect (.spanned (takes_value isConst ha) rfl)

theorem takes_arguments {isConst : Bool} {as : List Argument} (has : ∀ a ∈ as, a.Shaped isConst)
    (hk : first ks ≠ .leftParen) :
    Takes block limit (arguments limit isConst) (argumentLexemes as) as ks :=
  takes_optionalBetween (F := fun _ => True) rfl (fun a ha _ _ => takes_argument (has a ha))
    (fun a _ ks => ⟨by simp [Argument.lexemes], trivial⟩) (fun _ => trivial) rfl fun _ => hk

theorem takes_directive {isConst : Bool} {d : Directive} (hd : d.Shaped isConst)
    (hk : first ks ≠ .leftParen) :
    Takes block limit (directive limit isConst) d.lexemes d ks := by
  refine .start (.bind takes_expect ?_)
  exact .bind (takes_name d.name) (.spanned (takes_arguments hd hk) rfl)

theorem takes_directives_of_ne {isConst : Bool} {ds : List Directive}
    (hds : ∀ d ∈ ds, d.Shaped isConst) (hparen : first ks ≠ .leftParen) (hat : first ks ≠ .atSign) :
    Takes block limit (directives limit isConst) (directiveLexemes ds) ds ks := by
  refine takes_repeatWhile (fun d hd _ => takes_directive (hds d hd))
    (fun d _ ks => ⟨by simp [Directive.lexemes], by simp [Directive.lexemes]⟩) hparen ?_ le_rfl
  simpa [kind_head_mark (k := .atSign) rfl] using hat

theorem takes_directives {isConst : Bool} {ds : List Directive} (hds : ∀ d ∈ ds, d.Shaped isConst)
    (hk : Loose ks) : Takes block limit (directives limit isConst) (directiveLexemes ds) ds ks :=
  takes_directives_of_ne hds (hk.ne (by decide)) (hk.ne (by decide))

theorem first_directives_ne (ds : List Directive) {k : Token.Kind} (hk : k.isMark = true)
    (hne : k ≠ .atSign) : first (directiveLexemes ds) ≠ k := by
  cases ds with
  | nil => rintro rfl; cases hk
  | cons d ds => exact hne.symm

theorem Loose.past_directives (h : Loose ks) (ds : List Directive) {k : Token.Kind}
    (hk : k ∈ trailing) (hne : k ≠ .atSign) : first (directiveLexemes ds ++ ks) ≠ k := by
  cases ds with
  | nil => exact h.ne hk
  | cons d ds => exact hne.symm

theorem Loose.past_default (h : Loose ks) (o : Option Value) (ds : List Directive) :
    first (defaultLexemes o ++ (directiveLexemes ds ++ ks)) ≠ .bang :=
  first_append_ne (first_default_ne o (by decide) (by decide))
    (h.past_directives ds (by decide) (by decide))

theorem first_enclosed_ne {α : Type} {opening close : Token.Kind} {g : α → List Lexeme} (xs : List α)
    {k : Token.Kind} (hk : k.isMark = true) (hne : k ≠ opening) :
    first (enclosed opening close g xs) ≠ k := by
  cases xs with
  | nil => rintro rfl; cases hk
  | cons x xs => exact hne.symm

/-! ### Selections -/

section Set
variable {set : Rule SelectionSet}

/-- A rule reads selection sets back. -/
def TakesSets (block : String → Bool) (limit : Nat) (set : Rule SelectionSet) : Prop :=
  ∀ (x : SelectionSet) (ks : List Lexeme), x.Shaped → Takes block limit set x.lexemes x ks

theorem first_selectionSet (x : SelectionSet) (ks : List Lexeme) :
    first (x.lexemes ++ ks) = .leftBrace := by
  cases x
  simp

theorem loose_selectionSet (x : SelectionSet) (ks : List Lexeme) : Loose (x.lexemes ++ ks) := by
  rw [Loose, first_selectionSet]
  decide

theorem takes_afterNames (hset : TakesSets block limit set) {f : FieldSelection} (hf : f.Shaped)
    (hk : Loose ks) (hbrace : first ks ≠ .leftBrace) :
    Takes block limit (afterNames 0 limit set (relabel (.plain block) (f.aliasName, f.name)))
      (argumentLexemes f.arguments ++ (directiveLexemes f.directives
        ++ ofOption SelectionSet.lexemes f.selectionSet)) f ks := by
  obtain ⟨a, n, as, ds, x, s⟩ := f
  rw [FieldSelection.shaped_mk] at hf
  obtain ⟨has, hds, hx⟩ := hf
  have hx' : Loose (ofOption SelectionSet.lexemes x ++ ks) := by
    cases x with
    | none => exact hk
    | some x => exact loose_selectionSet x ks
  have hparen : first (directiveLexemes ds ++ (ofOption SelectionSet.lexemes x ++ ks)) ≠ .leftParen :=
    first_append_ne (first_directives_ne ds rfl (by decide)) (hx'.ne (by decide))
  refine Takes.bind (takes_arguments has (by simpa using hparen)) ?_
  refine .bind (takes_directives hds hx') ?_
  refine .spanned (takes_optional (fun x hx' => ⟨?_, hset x ks (hx x hx')⟩) fun _ => ?_)
    (relabel_fieldSelection _ a n as ds x s)
  · simpa [opensSet, kind_head_mark (k := .leftBrace) rfl] using first_selectionSet x ks
  · simpa [opensSet, kind_head_mark (k := .leftBrace) rfl] using hbrace

theorem takes_field (hset : TakesSets block limit set) {f : FieldSelection} (hf : f.Shaped)
    (hk : Loose ks) (hbrace : first ks ≠ .leftBrace) :
    Takes block limit (field limit set) f.lexemes f ks := by
  have hrest := takes_afterNames hset hf hk hbrace
  obtain ⟨a, n, as, ds, x, s⟩ := f
  have hcolon : first (argumentLexemes as ++ (directiveLexemes ds
      ++ (ofOption SelectionSet.lexemes x ++ ks))) ≠ .colon := by
    refine first_append_ne (first_enclosed_ne as rfl (by decide))
      (first_append_ne (first_directives_ne ds rfl (by decide)) ?_)
    cases x with
    | none => exact hk.ne (by decide)
    | some x => exact (loose_selectionSet x ks).ne (by decide)
  unfold field
  rw [FieldSelection.lexemes_mk]
  cases a with
  | none =>
    simp only [Lexeme.ofOption_none, List.nil_append, List.cons_append, List.append_assoc]
    refine .start (.bind (takes_name n) (.decline ?_ ?_))
    · simpa [kind_head_mark (k := .colon) rfl] using hcolon
    · simp only [Bool.false_eq_true, if_false, pure_bind]
      exact hrest
  | some a =>
    simp only [Lexeme.ofOption_some, List.cons_append, List.nil_append, List.append_assoc]
    refine .start (.bind (takes_name a) (.accept ?_))
    simp only [if_true, pure_bind]
    exact .bind (takes_name n) hrest

theorem takes_typeCondition (t : Option NamedType) (hk : t = none → (head block ks).kind ≠ .name) :
    Takes block limit (optional (·.isWord "on") (do advance; namedType)) (conditionLexemes t) t
      ks := by
  refine takes_optional (fun t _ => ⟨by simp [Token.isWord, Token.text],
    .advance (takes_namedType t)⟩) fun ht => ?_
  simpa [Token.isWord] using fun h => absurd h (hk ht)

theorem takes_fragmentSelection (hset : TakesSets block limit set) {x : Selection} (hx : x.Shaped)
    (hfield : ∀ f, x ≠ .field f) (hk : Loose ks) :
    Takes block limit (fragmentSelection limit set) x.lexemes x ks := by
  unfold fragmentSelection
  cases x with
  | field f => exact absurd rfl (hfield f)
  | spread f =>
    obtain ⟨n, ds, s⟩ := f
    obtain ⟨hn, hds⟩ := hx
    rw [Selection.lexemes]
    refine .start (.bind takes_expect (.get ?_))
    rw [if_pos (by simpa [Token.isWord, Token.text] using hn)]
    exact .bind (takes_name n) (.spanned (takes_directives hds hk) rfl)
  | inline f =>
    obtain ⟨t, ds, x, s⟩ := f
    obtain ⟨hds, hx⟩ := hx
    have hfirst : t = none →
        (head block (directiveLexemes ds ++ (x.lexemes ++ ks))).kind ≠ .name := by
      intro _
      rw [Ne, kind_head (by decide) (by decide)]
      cases ds with
      | nil => simp [first_selectionSet]
      | cons d ds => simp [directiveLexemes, Directive.lexemes]
    have hname : ((head block (conditionLexemes t ++ (directiveLexemes ds
        ++ (x.lexemes ++ ks)))).kind == .name && !(head block (conditionLexemes t
        ++ (directiveLexemes ds ++ (x.lexemes ++ ks)))).isWord "on") = false := by
      cases t with
      | none => simpa [conditionLexemes] using fun h => absurd h (hfirst rfl)
      | some t => simp [conditionLexemes, Token.isWord, Token.text]
    rw [Selection.lexemes, InlineFragment.lexemes]
    simp only [List.cons_append, List.append_assoc]
    refine .start (.bind takes_expect (.get ?_))
    rw [if_neg (by simpa using hname)]
    refine .bind (takes_typeCondition t (by simpa using hfirst)) ?_
    refine .bind (takes_directives hds (loose_selectionSet x ks)) ?_
    exact .spanned (hset x ks hx) rfl

theorem first_selection (x : Selection) (ks : List Lexeme) :
    first (x.lexemes ++ ks) = if x matches .field _ then .name else .spread := by
  cases x with
  | field f =>
    obtain ⟨a, n, as, ds, x, s⟩ := f
    cases a <;> simp [Selection.lexemes]
  | spread f => simp [Selection.lexemes]
  | inline f =>
    cases f
    simp [Selection.lexemes, InlineFragment.lexemes]

theorem takes_selection (hset : TakesSets block limit set) {x : Selection} (hx : x.Shaped)
    (hk : Loose ks) (hbrace : first ks ≠ .leftBrace) :
    Takes block limit (selection limit set) x.lexemes x ks := by
  have hfirst := first_selection x ks
  cases x with
  | field f =>
    have h : Takes block limit (field limit set >>= fun f => Pure.pure (Selection.field f))
        (Selection.field f).lexemes (.field f) ks := by
      rw [Selection.lexemes]
      exact .map (takes_field hset hx hk hbrace) rfl
    exact .ifFalse (by simp [kind_head_mark (k := .spread) rfl, hfirst]) h
  | spread f =>
    exact .ifTrue (by simp [kind_head_mark (k := .spread) rfl, hfirst])
      (takes_fragmentSelection hset hx (by simp) hk)
  | inline f =>
    exact .ifTrue (by simp [kind_head_mark (k := .spread) rfl, hfirst])
      (takes_fragmentSelection hset hx (by simp) hk)

end Set

/-- **A selection set is read back**, whatever stands behind it. -/
theorem takes_selectionSet : ∀ {limit : Nat}, TakesSets block limit (selectionSet limit) := by
  intro limit
  induction limit with
  | zero => exact fun _ _ _ hlen => absurd hlen (Nat.not_lt_zero _)
  | succ limit ih =>
    intro x ks hx
    obtain ⟨xs, s⟩ := x
    rw [SelectionSet.shaped_mk] at hx
    rw [SelectionSet.lexemes_mk]
    refine .start (.spanned (takes_between_succ (F := fun ks => Loose ks ∧ first ks ≠ .leftBrace) rfl
      (fun x hmem ks hk => takes_selection ih (hx.2 x hmem) hk.1 hk.2) (fun x _ ks => ?_)
      (fun ks => ⟨by simp [Loose, trailing], by simp⟩) hx.1) (relabel_selectionSet _ xs s))
    rw [Loose, first_selection]
    cases x <;> simp [trailing]

/-! ### Operations and fragments -/

theorem takes_variableDefinition {d : VariableDefinition} (hd : d.Shaped) (hk : Loose ks) :
    Takes block limit (variableDefinition limit) d.lexemes d ks := by
  obtain ⟨v, t, o, ds, s⟩ := d
  obtain ⟨ht, ho, hds⟩ := hd
  rw [VariableDefinition.lexemes]
  simp only [List.cons_append, List.append_assoc]
  refine .start (.bind (takes_variableUse v) ?_)
  refine .bind takes_expect ?_
  refine .bind (takes_typeRef ht (by simpa using hk.past_default o ds)) ?_
  refine .bind (takes_defaultValue ho (hk.past_directives ds (by decide) (by decide))) ?_
  exact .spanned (takes_directives hds hk) rfl

/-- **An operation is read back**, with its word or, where it can be, without it. -/
theorem takes_operation {full : Bool} {d : OperationDefinition} (hd : d.Shaped) :
    Takes block limit (operation limit) (d.lexemes full) d ks := by
  obtain ⟨o, n, vs, ds, x, s⟩ := d
  obtain ⟨hvs, hds, hx⟩ := hd
  let d : OperationDefinition := ⟨o, n, vs, ds, x, s⟩
  have hword : Takes block limit (operation limit) (d.lexemes true) d ks := by
    have hname : n = none → (head block (enclosed .leftParen .rightParen VariableDefinition.lexemes vs
        ++ (directiveLexemes ds ++ (x.lexemes ++ ks)))).kind ≠ .name := by
      intro _
      rw [Ne, kind_head (by decide) (by decide)]
      cases vs with
      | cons v vs => simp [enclosed]
      | nil =>
        cases ds with
        | cons d ds => simp [directiveLexemes, Directive.lexemes]
        | nil => simp [first_selectionSet]
    have hparen : first (directiveLexemes ds ++ (x.lexemes ++ ks)) ≠ .leftParen :=
      (loose_selectionSet x ks).past_directives ds (by decide) (by decide)
    rw [OperationDefinition.lexemes_true]
    simp only [List.cons_append, List.append_assoc]
    refine .start (.ifFalse (by simp) ?_)
    refine .bind (takes_keyword OperationType.ofKeyword?_eq_some (x := o) rfl) ?_
    refine .bind (takes_optional (fun n _ => ⟨by simp, takes_name n⟩) (by simpa using hname)) ?_
    refine .bind (takes_optionalBetween (F := Loose) rfl
      (fun v hv _ => takes_variableDefinition (hvs v hv))
      (fun v _ ks => ⟨by simp [VariableDefinition.lexemes],
        by simp [VariableDefinition.lexemes, Loose, trailing]⟩)
      (fun ks => by simp [Loose, trailing]) rfl fun _ => by simpa using hparen) ?_
    refine .bind (takes_directives hds (loose_selectionSet x ks)) ?_
    exact .spanned (takes_selectionSet x ks hx) rfl
  cases hbare : d.isShorthand && !full with
  | false =>
    rw [OperationDefinition.lexemes_eq_true hbare]
    exact hword
  | true =>
    obtain ⟨hshort, hfull⟩ : d.isShorthand = true ∧ full = false := by simpa using hbare
    obtain ⟨rfl, rfl, rfl, rfl⟩ : o = .query ∧ n = none ∧ vs = [] ∧ ds = [] := by
      simpa [OperationDefinition.isShorthand, d, and_assoc] using hshort
    rw [hfull, OperationDefinition.lexemes_of_isShorthand hshort]
    refine .start (.ifTrue ?_ (.spanned (takes_selectionSet x ks hx) rfl))
    simpa [kind_head_mark (k := .leftBrace) rfl] using first_selectionSet x ks

theorem takes_fragment {d : FragmentDefinition} (hd : d.Shaped) :
    Takes block limit (fragment limit) d.lexemes d ks := by
  obtain ⟨n, t, ds, x, s⟩ := d
  obtain ⟨hn, hds, hx⟩ := hd
  rw [FragmentDefinition.lexemes]
  simp only [List.cons_append, List.append_assoc]
  refine .start (.bind takes_expectWord (.ifFalse (by simpa [Token.isWord, Token.text] using hn) ?_))
  refine .bind (takes_name n) ?_
  refine .bind takes_expectWord ?_
  refine .bind (takes_namedType t) ?_
  refine .bind (takes_directives hds (loose_selectionSet x ks)) ?_
  exact .spanned (takes_selectionSet x ks hx) rfl

end QueryDocs.Rule
