import QueryDocs.Proofs.Grammar.Lookahead
import QueryDocs.Proofs.Grammar.Takes

/-! # What the rules for definitions do not look at

The optional parts at the end of a definition start with marks and words that no definition starts
with, but for the brace of a body. A definition is therefore read in the same way in front of every
definition and at the end of a text, unless it lacks a body that would then be read
(`firm_definition`). -/

namespace QueryDocs

namespace Rule

/-! ### Parts of definitions -/

/-- A token that continues no definition, unless with a body in braces. -/
structure Outside (t : Token) : Prop where
  kind : t.kind ∉ Lexeme.trailing
  word : t.kind = .name → t.text ∈ definitionWords

section Rules
variable {t : Token} {l : Nat} {c : Cursor}

theorem Outside.kind_ne (h : Outside t) {k : Token.Kind} (hk : k ∈ Lexeme.trailing) : t.kind ≠ k := by
  rintro rfl
  exact h.kind hk

theorem Outside.isWord (h : Outside t) {w : String} (hw : w ∉ definitionWords) :
    t.isWord w = false := by
  cases hword : t.isWord w with
  | false => rfl
  | true =>
    simp only [Token.isWord, Bool.and_eq_true, beq_iff_eq] at hword
    exact absurd (hword.2 ▸ h.word hword.1) hw

theorem isEnd_of_isWord {w : String} (h : t.isWord w = true) : t.isEnd = false := by
  simp only [Token.isWord, Bool.and_eq_true, beq_iff_eq] at h
  exact isEnd_of_hasValue rfl h.1

theorem Outside.continuesInterfaces (h : Outside t) : continuesInterfaces t = false := by
  by_cases hk : t.kind = .name
  · simp [Rule.continuesInterfaces, h.word hk]
  · simp [Rule.continuesInterfaces, hk]

theorem firm_directive (isConst : Bool) : Firm l (fun _ => Outside) (directive l isConst) c := by
  refine .start fun _ => ?_
  refine (firm_expect (P := fun _ _ => True) rfl).bind (fun _ d => ?_) fun _ _ _ _ => trivial
  refine (firm_name (P := fun _ _ => True)).indifferent.bind (fun n e => ?_) fun _ _ _ _ => trivial
  exact (indifferent_optionalBetween rfl rfl (fun _ hc => reads_argument monotone_id hc isConst)
    (fun _ _ => by simp [Argument.lexemes])).spanned fun _ _ _ ht _ => ht.kind_ne (by decide)

theorem indifferent_directives (isConst : Bool) :
    Indifferent l (fun _ => Outside) (directives l isConst) c :=
  indifferent_repeatWhile (fun t ht => by simpa using ht.kind_ne (k := .atSign) (by decide))
    (fun _ _ => firm_directive isConst) l c

theorem firm_selectionSet {P : SelectionSet → Token → Prop} : Firm l P (selectionSet l) c := by
  cases l with
  | zero => exact .fail
  | succ l =>
    refine .start fun _ => ?_
    have hitem : ∀ c : Cursor, c.Within l → Reads id l (selection l (selectionSet l))
        (selection l (selectionSet l)) c (Spelled Selection.lexemes Selection.Shaped) :=
      fun c hc => reads_selection monotone_id hc (fun _ hc => reads_selectionSet monotone_id hc) _
        sample_selectionSet
    exact (firm_between_succ (P := fun _ _ => True) rfl rfl hitem
      (fun x _ => lexemes_selection_ne_nil x)).spanned fun _ _ _ _ => trivial

/-! ### Operations and fragments -/

theorem firm_keyword {α : Type} [Labeled α] {ofKeyword? : String → Option α} {e : Expectation}
    {P : α → Token → Prop} : Firm l P (keyword ofKeyword? e) c := by
  refine Firm.get (fun c' h => by rw [h]) ?_
  dsimp only
  generalize hx : (if (c.current.kind == .name) = true then ofKeyword? c.current.text else none) = x
  cases x with
  | none => exact .fail
  | some x =>
    split_ifs at hx with hk
    exact (firm_advance (P := fun _ _ => True) (isEnd_of_hasValue rfl (by simpa using hk))).bind
      (fun _ _ => .pure x) fun _ _ _ _ => trivial

theorem firm_operation {P : OperationDefinition → Token → Prop} : Firm l P (operation l) c := by
  refine .start fun _ => .ifToken (fun _ => ?_) fun _ => ?_
  · exact (firm_selectionSet (P := fun _ _ => True)).spanned fun _ _ _ _ => trivial
  · refine .after firm_keyword.indifferent fun o d => ?_
    refine .after (Reads.local fun hd => reads_optional hd (fun _ => rfl) fun _ => reads_name hd)
      fun n e => ?_
    refine .after (Reads.local fun he => reads_optionalBetween rfl rfl sample_variableDefinition
      (fun _ hc => reads_variableDefinition monotone_id hc)
      (fun v _ => by simp [VariableDefinition.lexemes]) he) fun vs f => ?_
    refine .after (Reads.local fun hf => reads_directives monotone_id hf false) fun ds g => ?_
    exact (firm_selectionSet (P := fun _ _ => True)).spanned fun _ _ _ _ => trivial

theorem firm_fragment {P : FragmentDefinition → Token → Prop} : Firm l P (fragment l) c := by
  refine .start fun _ => .after firm_expectWord.indifferent fun _ d => ?_
  refine .ifToken (fun _ => .fail) fun _ => .after firm_name.indifferent fun n e => ?_
  refine .after firm_expectWord.indifferent fun _ f => ?_
  refine .after firm_namedType.indifferent fun t g => ?_
  refine .after (Reads.local fun hg => reads_directives monotone_id hg false) fun ds k => ?_
  exact (firm_selectionSet (P := fun _ _ => True)).spanned fun _ _ _ _ => trivial

/-! ### Types -/

theorem indifferent_interfaces : Indifferent l (fun _ => Outside) (interfaces l) c := by
  refine .ifToken (fun _ _ _ t ht => ht.isWord (by decide)) (fun hc => ?_) fun _ => .pure []
  refine (firm_advance (P := fun _ _ => True) (isEnd_of_isWord hc)).bind (fun _ d => ?_)
    fun _ _ _ _ => trivial
  refine (firm_namedType (P := fun _ _ => True)).indifferent.bind (fun t e => ?_) fun _ _ _ _ => trivial
  exact (indifferent_repeatWhile (fun t ht => ht.continuesInterfaces) (fun _ _ => firm_namedType)
    l e).bind (fun ts _ => .pure (t :: ts)) fun _ _ _ ht => ht

/-- The bar before the first item is no token behind the items. -/
theorem firm_leadingBar {α : Type} {r : Rule α} (h : ∀ c : Cursor, Firm l (fun _ _ => True) r c) :
    Firm l (fun _ => Outside) (do
      let _ ← accept .pipe
      separated l .pipe r) c := by
  have hitems : ∀ c, Firm l (fun _ => Outside) (separated l .pipe r) c := fun c =>
    firm_separated (fun t ht => ht.kind_ne (by decide)) h
  rw [accept_bind]
  refine .ifToken (fun hc => ?_) fun _ => hitems c
  have he : c.current.isEnd = false := isEnd_of_isMark (k := .pipe) rfl (by simpa using hc)
  exact (firm_advance (P := fun _ _ => True) he).bind (fun _ d => (hitems d).indifferent)
    fun _ _ _ _ => trivial

theorem indifferent_unionMembers : Indifferent l (fun _ => Outside) (unionMembers l) c := by
  rw [unionMembers, accept_bind]
  refine .ifToken (fun _ _ _ t ht => ?_) (fun hc => ?_) fun _ => .pure []
  · simpa using ht.kind_ne (k := .equals) (by decide)
  · have he : c.current.isEnd = false := isEnd_of_isMark (k := .equals) rfl (by simpa using hc)
    exact (firm_advance (P := fun _ _ => True) he).bind
      (fun _ d => (firm_leadingBar fun _ => firm_namedType).indifferent) fun _ _ _ _ => trivial

/-- The rules for types start with a word, a name and what may follow them. -/
theorem firm_typeHead {α : Type} {Q : α → Token → Prop} {k : Name → Rule α} {w : String}
    (hc : c.current.isWord w = true) (hk : ∀ n d, Indifferent l Q (k n) d) :
    Firm l Q (do
      advance
      let n ← name
      k n) c :=
  (firm_advance (P := fun _ _ => True) (isEnd_of_isWord hc)).bind
    (fun _ _ => (firm_name (P := fun _ _ => True)).indifferent.bind hk fun _ _ _ _ => trivial)
    fun _ _ _ _ => trivial

/-- A token that a definition can stand in front of: it opens no body that the definition lacks. -/
def Behind (lacksBody : Bool) (t : Token) : Prop :=
  Outside t ∧ (lacksBody = true → t.kind ≠ .leftBrace)

section Types
variable (start : Nat) (v : Option StringValue)

theorem firm_scalar (hc : c.current.isWord "scalar" = true) :
    Firm l (fun _ => Outside) (scalar l start v) c :=
  firm_typeHead hc fun _ _ => (indifferent_directives true).spanned fun _ _ _ ht => ht

theorem firm_membered {α β : Type} {make : Option StringValue → Name → List Directive → α → Span → β}
    {members : Rule α} {Q : β → Token → Prop} {w : String} (hc : c.current.isWord w = true)
    (hQ : ∀ x t, Q x t → Outside t)
    (hmembers : ∀ n ds d, Indifferent l Q (members >>= fun xs => spanFrom start >>= fun s =>
      Pure.pure (make v n ds xs s)) d) : Firm l Q (membered make members l start v) c :=
  firm_typeHead hc fun n _ => (indifferent_directives true).bind (fun ds d => hmembers n ds d)
    fun _ _ _ ht => hQ _ _ ht

/-- A body in braces, or a token that opens none. -/
theorem indifferent_body {α β : Type} [Labeled α] {r : Rule α} {g : α → List Lexeme} {S : α → Prop}
    {f : List α → Span → β} {lacksBody : β → Bool}
    (hitem : ∀ c : Cursor, c.Within l → Reads id l r r c (Spelled g S)) (hne : ∀ x, S x → g x ≠ [])
    (hf : ∀ xs s, xs = [] → lacksBody (f xs s) = true) :
    Indifferent l (fun x => Behind (lacksBody x))
      (optionalBetween l .leftBrace r .rightBrace >>= fun xs => spanFrom start >>= fun s =>
        Pure.pure (f xs s)) c :=
  (indifferent_optionalBetween rfl rfl hitem hne).spanned fun xs s _ ht hxs => ht.2 (hf xs s hxs)

theorem firm_composite {w : String} (hc : c.current.isWord w = true) :
    Firm l (fun x => Behind x.fields.isEmpty) (composite l start v) c := by
  refine firm_typeHead hc fun n d => indifferent_interfaces.bind (fun ts e => ?_) fun _ _ _ ht => ht.1
  refine (indifferent_directives true).bind (fun ds f => ?_) fun _ _ _ ht => ht.1
  exact indifferent_body start (fun _ hc => reads_fieldDefinition monotone_id hc)
    (fun f _ => by simp [FieldDefinition.lexemes]) fun _ _ => List.isEmpty_iff.mpr

theorem firm_typeDefinition : Firm l (fun x => Behind x.lacksBody) (typeDefinition l start v) c := by
  refine .get (fun c' h => by rw [h]) (.ite (fun hc => ?_) fun _ => .ite (fun hc => ?_) fun _ =>
    .ite (fun hc => ?_) fun _ => .ite (fun hc => ?_) fun _ => .ite (fun hc => ?_) fun _ =>
    .ite (fun hc => ?_) fun _ => .fail)
  · exact (firm_scalar start v hc).map fun _ _ ht => ht.1
  · exact (firm_composite start v hc).map fun _ _ ht => ht
  · exact (firm_composite start v hc).map fun _ _ ht => ht
  · exact (firm_membered start v hc (fun _ _ ht => ht) fun _ _ _ =>
      indifferent_unionMembers.spanned fun _ _ _ ht => ht).map fun _ _ ht => ht.1
  · exact (firm_membered start v hc (fun _ _ ht => ht.1) fun _ _ _ =>
      indifferent_body start (fun _ hc => reads_enumValue monotone_id hc)
        (fun v _ => by simp [EnumValueDefinition.lexemes]) fun _ _ => List.isEmpty_iff.mpr).map
      fun _ _ ht => ht
  · exact (firm_membered start v hc (fun _ _ ht => ht.1) fun _ _ _ =>
      indifferent_body start (fun _ hc => reads_inputValue monotone_id hc)
        (fun f _ => lexemes_inputValue_ne_nil f) fun _ _ => List.isEmpty_iff.mpr).map
      fun _ _ ht => ht

/-! ### Schemas and directives -/

theorem firm_schema {P : SchemaDefinition → Token → Prop} (hc : c.current.isWord "schema" = true) :
    Firm l P (schema l start v) c := by
  refine (firm_advance (P := fun _ _ => True) (isEnd_of_isWord hc)).bind (fun _ d => ?_)
    fun _ _ _ _ => trivial
  refine (Firm.after (Reads.local fun hd => reads_directives monotone_id hd true)
    fun ds e => ?_).indifferent
  exact (firm_between (P := fun _ _ => True) rfl rfl (fun _ hc => reads_rootOperationType monotone_id hc)
    (fun t _ => by simp [RootOperationType.lexemes])).spanned fun _ _ _ _ => trivial

theorem firm_directiveDefinition (hc : c.current.isWord "directive" = true) :
    Firm l (fun _ => Outside) (directiveDefinition l start v) c := by
  have hplaces : ∀ (f : List DirectiveLocation → Span → DirectiveDefinition) (d : Cursor),
      Firm l (fun _ => Outside) (do
        expectWord "on"
        let _ ← accept .pipe
        let os ← separated l .pipe directiveLocation
        let s ← spanFrom start
        return f os s) d := by
    intro f d
    refine .after firm_expectWord.indifferent fun _ e => ?_
    rw [← bind_assoc]
    exact (firm_leadingBar fun _ => firm_keyword).spanned fun _ _ _ ht => ht
  refine (firm_advance (P := fun _ _ => True) (isEnd_of_isWord hc)).bind (fun _ d => ?_)
    fun _ _ _ _ => trivial
  refine (Firm.after (firm_expect rfl).indifferent fun _ e => ?_).indifferent
  refine .after firm_name.indifferent fun n f => ?_
  refine .after (Reads.local fun hf => reads_declaredArguments monotone_id hf) fun as g => ?_
  refine .atToken ?_
  generalize hb : g.current.isWord "repeatable" = b
  cases b with
  | true =>
    exact (firm_advance (P := fun _ _ => True) (isEnd_of_isWord hb)).bind
      (fun _ k => (hplaces _ k).indifferent) fun _ _ _ _ => trivial
  | false => exact hplaces _ g

end Types

/-! ### Definitions -/

theorem firm_extension : Firm l (fun x => Behind x.definition.lacksBody) (extension l) c := by
  refine .start fun _ => .after firm_expectWord.indifferent fun _ d => .start fun n => ?_
  exact (firm_typeDefinition n none).spanned fun _ _ _ ht => ht

theorem firm_typeSystemDefinition (v : Option StringValue) :
    Firm l (fun x => Behind x.lacksBody) (typeSystemDefinition l v) c := by
  refine .startOf v fun n => .get (fun c' h => by rw [h]) (.ite (fun hc => ?_) fun _ =>
    .ite (fun hc => ?_) fun _ => ?_)
  · exact (firm_schema (P := fun _ _ => True) n v hc).map fun _ _ _ => trivial
  · exact (firm_directiveDefinition n v hc).map fun _ _ ht => ht.1
  · exact (firm_typeDefinition n v).map fun _ _ ht => ht

/-- **A definition is read in the same way in front of every token that it can stand in front of.** -/
theorem firm_definition : Firm l (fun x => Behind x.lacksBody) (definition l) c := by
  refine .get (fun c' h => by rw [h]) (.ite (fun _ => ?_) fun _ => .ite (fun hc => ?_) fun _ =>
    .ite (fun _ => ?_) fun _ => .ite (fun _ => ?_) fun _ => firm_typeSystemDefinition none)
  · exact (firm_operation (P := fun _ _ => True)).map fun _ _ _ => trivial
  · exact .after (Reads.local fun hd => reads_stringValue hd hc) fun v d =>
      firm_typeSystemDefinition (some v)
  · exact (firm_fragment (P := fun _ _ => True)).map fun _ _ _ => trivial
  · exact firm_extension.map fun _ _ ht => ht

/-! ### Where definitions start -/

theorem outside_of_isWord {w : String} (h : t.isWord w = true) (hw : w ∈ definitionWords) :
    Outside t := by
  simp only [Token.isWord, Bool.and_eq_true, beq_iff_eq] at h
  obtain ⟨hkind, rfl⟩ := h
  exact ⟨by rw [hkind]; decide, fun _ => hw⟩

theorem outside_of_isEnd (h : t.isEnd = true) : Outside t := by
  have hkind : t.kind = .endOfText := by simpa using h
  exact ⟨by rw [hkind]; decide, fun h => by rw [hkind] at h; cases h⟩

theorem outside_of_isString (h : isString t = true) : Outside t := by
  have hkind : t.kind = .string ∨ t.kind = .blockString := by simpa [isString] using h
  rcases hkind with hkind | hkind <;>
    exact ⟨by rw [hkind]; decide, fun h => by rw [hkind] at h; cases h⟩

theorem outside_of_startsOperation (h : startsOperation t = true) : Outside t := by
  simp only [startsOperation, Bool.or_eq_true, Bool.and_eq_true, beq_iff_eq] at h
  rcases h with hkind | ⟨hkind, hword⟩
  · exact ⟨by rw [hkind]; decide, fun h => by rw [hkind] at h; cases h⟩
  · obtain ⟨o, ho⟩ := Option.isSome_iff_exists.mp hword
    have hkeyword : o.keyword ∈ definitionWords := by cases o <;> decide
    rw [OperationType.ofKeyword?_eq_some] at ho
    exact ⟨by rw [hkind]; decide, fun _ => ho ▸ hkeyword⟩

theorem outside_of_typeDefinition {start : Nat} {v : Option StringValue} {x : TypeDefinition}
    {d : Cursor} (h : typeDefinition l start v c = .ok (x, d)) : Outside c.current := by
  change (if c.current.isWord "scalar" then _ else _ : Rule TypeDefinition) c = _ at h
  split_ifs at h with h1 h2 h3 h4 h5 h6
  · exact outside_of_isWord h1 (by decide)
  · exact outside_of_isWord h2 (by decide)
  · exact outside_of_isWord h3 (by decide)
  · exact outside_of_isWord h4 (by decide)
  · exact outside_of_isWord h5 (by decide)
  · exact outside_of_isWord h6 (by decide)
  · cases h

theorem outside_of_typeSystemDefinition {x : Definition} {d : Cursor}
    (h : typeSystemDefinition l none c = .ok (x, d)) : Outside c.current := by
  change (if c.current.isWord "schema" then _ else _ : Rule Definition) c = _ at h
  split_ifs at h with h1 h2
  · exact outside_of_isWord h1 (by decide)
  · exact outside_of_isWord h2 (by decide)
  · obtain ⟨y, e, hy, -⟩ := bind_eq_ok h
    exact outside_of_typeDefinition hy

theorem outside_of_definition {x : Definition} {d : Cursor} (h : definition l c = .ok (x, d)) :
    Outside c.current := by
  change (if startsOperation c.current then _ else _ : Rule Definition) c = _ at h
  split_ifs at h with hoperation hstring hfragment hextend
  · exact outside_of_startsOperation hoperation
  · exact outside_of_isString hstring
  · exact outside_of_isWord hfragment (by decide)
  · exact outside_of_isWord hextend (by decide)
  · exact outside_of_typeSystemDefinition h

end Rules

/-! ### The token before -/

/-- What a rule does does not depend on the end of the token before it. -/
def Fresh {α : Type} (r : Rule α) : Prop :=
  ∀ t rest m n, r ⟨t, rest, m⟩ = r ⟨t, rest, n⟩

section Fresh
variable {α β : Type} {r a b : Rule α} {k : α → Rule β} {l : Nat}

theorem Fresh.bind (h : Fresh r) : Fresh (r >>= k) := by
  intro t rest m n
  change (r _ >>= fun p => k p.1 p.2) = (r _ >>= fun p => k p.1 p.2)
  rw [h t rest m n]

theorem Fresh.get {f : Cursor → Rule α} (hf : ∀ t rest m n, f ⟨t, rest, m⟩ = f ⟨t, rest, n⟩)
    (h : ∀ c, Fresh (f c)) : Fresh (get >>= f) := by
  intro t rest m n
  change f ⟨t, rest, m⟩ ⟨t, rest, m⟩ = f ⟨t, rest, n⟩ ⟨t, rest, n⟩
  rw [hf t rest m n, h]

theorem Fresh.atToken {p : Token → Bool} {K : Bool → Rule α} (h : ∀ b, Fresh (K b)) :
    Fresh (Rule.atToken p >>= K) :=
  Fresh.get (f := fun c => K (p c.current)) (fun _ _ _ _ => rfl) fun _ => h _

theorem Fresh.start {K : Nat → Rule α} (h : ∀ n, Fresh (K n)) : Fresh (Rule.start >>= K) :=
  Fresh.get (f := fun c => K c.current.span.start) (fun _ _ _ _ => rfl) fun _ => h _

theorem Fresh.ite {p : Prop} [Decidable p] (ha : Fresh a) (hb : Fresh b) :
    Fresh (if p then a else b) := by
  split
  · exact ha
  · exact hb

theorem fresh_fail (e : Expectation) : Fresh (fail e : Rule α) := fun _ _ _ _ => rfl

theorem fresh_advance : Fresh advance := by
  intro t rest m n
  cases rest <;> rfl

theorem fresh_expect (k : Token.Kind) : Fresh (expect k) :=
  .atToken fun _ => .ite fresh_advance (fresh_fail _)

theorem fresh_expectWord (w : String) : Fresh (expectWord w) :=
  .atToken fun _ => .ite fresh_advance (fresh_fail _)

theorem fresh_selectionSet : Fresh (selectionSet l) := by
  cases l with
  | zero => exact fresh_fail _
  | succ l => exact .start fun _ => (fresh_expect _).bind.bind

theorem fresh_operation : Fresh (operation l) := by
  refine .start fun _ => .atToken fun _ => .ite fresh_selectionSet.bind (.bind ?_)
  refine .get (fun _ _ _ _ => rfl) fun c => ?_
  dsimp only
  generalize (if (c.current.kind == .name) = true then
    OperationType.ofKeyword? c.current.text else none) = o
  cases o with
  | none => exact fresh_fail _
  | some o => exact fresh_advance.bind

theorem fresh_typeDefinition (start : Nat) (v : Option StringValue) :
    Fresh (typeDefinition l start v) := by
  have hrule : ∀ {α β : Type} {k : Unit → Rule α} {f : α → Rule β}, Fresh ((advance >>= k) >>= f) :=
    fresh_advance.bind.bind
  exact .get (fun _ _ _ _ => rfl) fun _ => .ite hrule (.ite hrule (.ite hrule (.ite hrule (.ite hrule
    (.ite hrule (fresh_fail _))))))

/-- **A definition depends on nothing before it.** -/
theorem fresh_definition : Fresh (definition l) := by
  refine .get (fun _ _ _ _ => rfl) fun c => .ite fresh_operation.bind (.ite ?_ (.ite ?_ (.ite ?_ ?_)))
  · have hdescription : Fresh stringValue := .get (fun _ _ _ _ => rfl) fun _ => fresh_advance.bind
    exact hdescription.bind
  · have hfragment : Fresh (fragment l) := .start fun _ => (fresh_expectWord _).bind
    exact hfragment.bind
  · have hextension : Fresh (extension l) := .start fun _ => (fresh_expectWord _).bind
    exact hextension.bind
  · exact .start fun n => .get (fun _ _ _ _ => rfl) fun _ => .ite fresh_advance.bind.bind
      (.ite fresh_advance.bind.bind (fresh_typeDefinition n none).bind)

end Fresh

end Rule

end QueryDocs
