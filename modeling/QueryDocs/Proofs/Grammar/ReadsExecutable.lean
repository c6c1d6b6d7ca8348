import QueryDocs.Grammar.Executable
import QueryDocs.Proofs.Grammar.ReadsValues

/-! # What the rules for operations and fragments read -/

namespace QueryDocs.Rule

open Lexeme (mark word ofOption enclosed)

section Executable
variable {φ : Nat → Nat} (hφ : Monotone φ) {l limit : Nat} {c : Cursor} (hc : c.Within l)
include hφ hc

/-! ### Arguments and directives -/

theorem reads_argument (isConst : Bool) :
    Reads φ limit (argument l isConst) (argument limit isConst) c
      (Spelled Argument.lexemes (Argument.Shaped isConst)) := by
  obtain ⟨hshape, -⟩ := sample_value isConst
  refine Reads.start ?_
  refine Reads.bind hc (reads_name hc) (fun n d _ hd => ?_) fun n _ =>
    ⟨[mark .colon, word "a"], ⟨n, .enum ⟨"a", .empty 0⟩, .empty 0⟩, by decide, rfl, hshape⟩
  refine Reads.bind hd (reads_expect hd rfl) (fun _ e _ he => ?_) fun _ _ =>
    ⟨[word "a"], ⟨n, .enum ⟨"a", .empty 0⟩, .empty 0⟩, by decide, rfl, hshape⟩
  refine Reads.bind he (reads_value hφ he isConst) (fun v _ hv _ => ?_) fun v hv =>
    ⟨[], ⟨n, v, .empty 0⟩, rfl, by simp [Argument.lexemes], hv⟩
  exact Reads.spanFrom hφ fun _ => .pure ⟨by simp [Argument.lexemes], hv⟩ rfl

omit hφ hc in
theorem sample_argument (isConst : Bool) :
    Sample Argument.lexemes (Argument.Shaped isConst)
      ⟨⟨"a", .empty 0⟩, .enum ⟨"a", .empty 0⟩, .empty 0⟩ :=
  ⟨(sample_value isConst).1, by decide⟩

theorem reads_arguments (isConst : Bool) :
    Reads φ limit (arguments l isConst) (arguments limit isConst) c
      (Spelled argumentLexemes fun as => ∀ a ∈ as, a.Shaped isConst) :=
  reads_optionalBetween rfl rfl (sample_argument isConst)
    (fun _ hc => reads_argument hφ hc isConst) (fun a _ => by simp [Argument.lexemes]) hc

theorem reads_directive (isConst : Bool) :
    Reads φ limit (directive l isConst) (directive limit isConst) c
      (Spelled Directive.lexemes (Directive.Shaped isConst)) := by
  refine Reads.start ?_
  refine Reads.bind hc (reads_expect hc rfl) (fun _ d _ hd => ?_) fun _ _ =>
    ⟨[word "a"], ⟨⟨"a", .empty 0⟩, [], .empty 0⟩, by decide, rfl, by simp [Directive.Shaped]⟩
  refine Reads.bind hd (reads_name hd) (fun n e _ he => ?_) fun n _ =>
    ⟨[], ⟨n, [], .empty 0⟩, rfl, rfl, by simp [Directive.Shaped]⟩
  refine Reads.bind he (reads_arguments hφ he isConst) (fun as _ has _ => ?_) fun as has =>
    ⟨[], ⟨n, as, .empty 0⟩, rfl, by simp [Directive.lexemes], has⟩
  exact Reads.spanFrom hφ fun _ => .pure ⟨by simp [Directive.lexemes], has⟩ rfl

theorem reads_directives (isConst : Bool) :
    Reads φ limit (directives l isConst) (directives limit isConst) c
      (Spelled directiveLexemes fun ds => ∀ d ∈ ds, d.Shaped isConst) :=
  reads_repeatWhile (fun _ => rfl) (fun _ hc _ => reads_directive hφ hc isConst)
    (fun d _ => by simp [Directive.lexemes]) hc

/-! ### Selections -/

section Set
variable {set set' : Rule SelectionSet}
  (hset : ∀ c : Cursor, c.Within l →
    Reads φ limit set set' c (Spelled SelectionSet.lexemes SelectionSet.Shaped))
include hset

/-- What stands behind the names of a field. -/
def afterNames (start limit : Nat) (set : Rule SelectionSet) (names : Option Name × Name) :
    Rule FieldSelection := do
  let arguments ← arguments limit false
  let directives ← directives limit false
  let selectionSet ← optional opensSet set
  return ⟨names.1, names.2, arguments, directives, selectionSet, ← spanFrom start⟩

theorem reads_afterNames (start : Nat) (a : Option Name) (n : Name) :
    Reads φ limit (afterNames start l set (a, n))
      (afterNames (φ start) limit set' (relabel (.move φ) (a, n))) c fun f ls =>
        Spelled FieldSelection.lexemes FieldSelection.Shaped f
          (ofOption (fun a => [word a.text, mark .colon]) a ++ word n.text :: ls) := by
  refine Reads.bind hc (reads_arguments hφ hc false) (fun as d has hd => ?_) fun as has =>
    ⟨[], ⟨a, n, as, [], none, .empty 0⟩, rfl, by simp, by simpa using has⟩
  refine Reads.bind hd (reads_directives hφ hd false) (fun ds e hds he => ?_) fun ds hds =>
    ⟨[], ⟨a, n, as, ds, none, .empty 0⟩, rfl, by simp, by simpa using ⟨has, hds⟩⟩
  refine Reads.bind he (reads_optional he (fun _ => rfl) fun _ => hset e he) (fun x _ hx _ => ?_)
    fun x hx => ⟨[], ⟨a, n, as, ds, x, .empty 0⟩, rfl, by simp, by simpa using ⟨has, hds, hx⟩⟩
  exact Reads.spanFrom hφ fun _ => .pure ⟨by simp, by simpa using ⟨has, hds, hx⟩⟩
    (by rw [relabel_fieldSelection]; rfl)

theorem reads_field :
    Reads φ limit (field l set) (field limit set') c
      (Spelled FieldSelection.lexemes FieldSelection.Shaped) := by
  unfold field
  refine Reads.start ?_
  refine Reads.bind hc (reads_name hc) (fun n d _ hd => ?_) fun n _ =>
    ⟨[], ⟨none, n, [], [], none, .empty 0⟩, rfl, rfl, by simp⟩
  refine Reads.accept hd rfl (fun _ e he => ?_) fun _ => ?_
  · simp only [if_true, pure_bind]
    refine Reads.bind he (reads_name he) (fun m f _ hf => ?_) fun m _ =>
      ⟨[], ⟨some n, m, [], [], none, .empty 0⟩, rfl, rfl, by simp⟩
    exact reads_afterNames hφ hf hset _ (some n) m
  · simp only [Bool.false_eq_true, if_false, pure_bind]
    exact reads_afterNames hφ hd hset _ none n

omit hφ hset in
theorem reads_typeCondition :
    Reads φ limit (optional (·.isWord "on") (do advance; namedType))
      (optional (·.isWord "on") (do advance; namedType)) c
      (Spelled conditionLexemes fun _ => True) := by
  refine (reads_optional hc (fun _ => rfl) (P := fun _ => True) fun h => Reads.advance_word hc h
    fun d hd => (reads_namedType hd).imp fun t ls ht => ?_).imp fun o ls ho => ⟨ho.1, trivial⟩
  exact ⟨by rw [ht.1], trivial⟩

theorem reads_fragmentSelection (x₀ : SelectionSet)
    (hx₀ : Sample SelectionSet.lexemes SelectionSet.Shaped x₀) :
    Reads φ limit (fragmentSelection l set) (fragmentSelection limit set') c
      (Spelled Selection.lexemes Selection.Shaped) := by
  unfold fragmentSelection
  have hspread' : ∀ n : Name, n.text ≠ "on" → (Selection.spread ⟨n, [], .empty 0⟩).Shaped :=
    fun n hn => ⟨hn, by simp⟩
  refine Reads.start ?_
  refine Reads.bind hc (reads_expect hc rfl) (fun _ d _ hd => ?_) fun _ _ =>
    ⟨[word "a"], .spread ⟨⟨"a", .empty 0⟩, [], .empty 0⟩, by decide, rfl, hspread' _ (by decide)⟩
  refine Reads.get (fun c' h => by rw [h]) ?_
  simp only [Token.kind_move, Token.isWord_move]
  refine Reads.ite (fun h => ?_) fun _ => ?_
  · obtain ⟨hkind, hon⟩ : d.current.kind = .name ∧ d.current.text ≠ "on" := by
      simp only [Token.isWord, Bool.and_eq_true, beq_iff_eq, Bool.not_eq_true'] at h
      exact ⟨h.1, by simpa [h.1] using h.2⟩
    refine Reads.bind hd (reads_name_of (P := (· ≠ "on")) hd (fun _ => hon) fun h => absurd hkind h)
      (fun n e hname he => ?_) fun n hname =>
      ⟨[], .spread ⟨n, [], .empty 0⟩, rfl, rfl, hspread' n hname⟩
    refine Reads.bind he (reads_directives hφ he false) (fun ds _ hds _ => ?_) fun ds hds =>
      ⟨[], .spread ⟨n, ds, .empty 0⟩, rfl, by simp [Selection.lexemes], hname, hds⟩
    exact Reads.spanFrom hφ fun _ => .pure ⟨by simp [Selection.lexemes], hname, hds⟩ rfl
  · refine Reads.bind hd (reads_typeCondition hd) (fun t e _ he => ?_) fun t _ =>
      ⟨x₀.lexemes, .inline ⟨t, [], x₀, .empty 0⟩, hx₀.2, ?_, by simp, hx₀.1⟩
    · refine Reads.bind he (reads_directives hφ he false) (fun ds f hds hf => ?_) fun ds hds =>
        ⟨x₀.lexemes, .inline ⟨t, ds, x₀, .empty 0⟩, hx₀.2, ?_, hds, hx₀.1⟩
      · refine Reads.bind hf (hset f hf) (fun x _ hx _ => ?_) fun x hx =>
          ⟨[], .inline ⟨t, ds, x, .empty 0⟩, rfl, ?_, hds, hx⟩
        · exact Reads.spanFrom hφ fun _ =>
            .pure ⟨by simp [Selection.lexemes, InlineFragment.lexemes], hds, hx⟩ rfl
        · simp [Selection.lexemes, InlineFragment.lexemes]
      · simp [Selection.lexemes, InlineFragment.lexemes]
    · simp [Selection.lexemes, InlineFragment.lexemes]

theorem reads_selection (x₀ : SelectionSet)
    (hx₀ : Sample SelectionSet.lexemes SelectionSet.Shaped x₀) :
    Reads φ limit (selection l set) (selection limit set') c
      (Spelled Selection.lexemes Selection.Shaped) := by
  refine Reads.ifToken (fun _ => rfl) (fun h => ?_) fun _ => ?_
  · exact reads_fragmentSelection hφ hc hset x₀ hx₀
  · exact Reads.bind hc (reads_field hφ hc hset) (fun f _ hf _ => .pure ⟨by simp [Selection.lexemes], hf⟩ rfl)
      fun f hf => ⟨[], .field f, rfl, by simp [Selection.lexemes], hf⟩

end Set

omit hφ hc in
theorem sample_selectionSet :
    Sample SelectionSet.lexemes SelectionSet.Shaped
      ⟨[.field ⟨none, ⟨"a", .empty 0⟩, [], [], none, .empty 0⟩], .empty 0⟩ :=
  ⟨by simp [Selection.Shaped], by decide⟩

omit hφ hc in
theorem lexemes_selection_ne_nil (x : Selection) : x.lexemes ≠ [] := by
  cases x with
  | field f => cases f; simp [Selection.lexemes]
  | spread f => simp [Selection.lexemes]
  | inline f => cases f; simp [Selection.lexemes, InlineFragment.lexemes]

/-- **A selection set is read as it is written.** -/
theorem reads_selectionSet :
    Reads φ limit (selectionSet l) (selectionSet limit) c
      (Spelled SelectionSet.lexemes SelectionSet.Shaped) := by
  induction l generalizing limit c with
  | zero => exact absurd hc.bound (Nat.not_lt_zero _)
  | succ l ih =>
    have hstep : ∀ limit, Reads φ (limit + 1) (selectionSet (l + 1)) (selectionSet (limit + 1)) c
        (Spelled SelectionSet.lexemes SelectionSet.Shaped) := by
      intro limit
      have hsample : Sample Selection.lexemes Selection.Shaped
          (.field ⟨none, ⟨"a", .empty 0⟩, [], [], none, .empty 0⟩) :=
        ⟨by simp [Selection.Shaped], by decide⟩
      unfold selectionSet
      refine Reads.start ?_
      have hitem : ∀ c : Cursor, c.Within l → Reads φ limit (selection l (selectionSet l))
          (selection limit (selectionSet limit)) c (Spelled Selection.lexemes Selection.Shaped) :=
        fun c hc => reads_selection hφ hc (fun _ hc => ih hc) _ sample_selectionSet
      refine Reads.bind hc (reads_between_succ rfl rfl hsample hitem
        (fun x _ => lexemes_selection_ne_nil x) hc) (fun xs _ hxs _ => ?_) fun xs hxs =>
        ⟨[], ⟨xs, .empty 0⟩, rfl, by simp, by simpa using hxs⟩
      exact Reads.spanFrom hφ fun _ =>
        .pure ⟨by simp, by simpa using hxs⟩ (by rw [relabel_selectionSet])
    rcases limit with _ | limit
    · exact ((hstep 0).mono (Nat.zero_le 1)).zero
    · exact hstep limit

/-! ### Operations and fragments -/

theorem reads_variableDefinition :
    Reads φ limit (variableDefinition l) (variableDefinition limit) c
      (Spelled VariableDefinition.lexemes VariableDefinition.Shaped) := by
  refine Reads.start ?_
  refine Reads.bind hc (reads_variableUse hφ hc) (fun v d _ hd => ?_) fun v _ =>
    ⟨[mark .colon, word "a"], ⟨v, .named ⟨⟨"a", .empty 0⟩, .empty 0⟩, none, [], .empty 0⟩,
      by decide, rfl, trivial, by simp, by simp⟩
  refine Reads.bind hd (reads_expect hd rfl) (fun _ e _ he => ?_) fun _ _ =>
    ⟨[word "a"], ⟨v, .named ⟨⟨"a", .empty 0⟩, .empty 0⟩, none, [], .empty 0⟩,
      by decide, rfl, trivial, by simp, by simp⟩
  refine Reads.bind he (reads_typeRef hφ he) (fun t f ht hf => ?_) fun t ht =>
    ⟨[], ⟨v, t, none, [], .empty 0⟩, rfl,
      by simp [VariableDefinition.lexemes],
      ht, by simp, by simp⟩
  refine Reads.bind hf (reads_defaultValue hφ hf) (fun o g ho hg => ?_) fun o ho =>
    ⟨[], ⟨v, t, o, [], .empty 0⟩, rfl,
      by simp [VariableDefinition.lexemes], ht, ho, by simp⟩
  refine Reads.bind hg (reads_directives hφ hg true) (fun ds _ hds _ => ?_) fun ds hds =>
    ⟨[], ⟨v, t, o, ds, .empty 0⟩, rfl, by simp [VariableDefinition.lexemes], ht, ho, hds⟩
  exact Reads.spanFrom hφ fun _ => .pure ⟨by simp [VariableDefinition.lexemes], ht, ho, hds⟩ rfl

omit hφ hc in
theorem sample_variableDefinition :
    Sample VariableDefinition.lexemes VariableDefinition.Shaped
      ⟨⟨⟨"a", .empty 0⟩, .empty 0⟩, .named ⟨⟨"a", .empty 0⟩, .empty 0⟩, none, [], .empty 0⟩ :=
  ⟨⟨trivial, by simp, by simp⟩, by decide⟩

omit hφ in
/-- A word of a table is read as what it stands for. -/
theorem reads_keyword {α : Type} [Labeled α] {ofKeyword? : String → Option α} {spelling : α → String}
    {e : Expectation} {x₀ : α} (htable : ∀ {w x}, ofKeyword? w = some x ↔ spelling x = w)
    (hmove : ∀ x : α, relabel (.move φ) x = x)
    (hx₀ : Sample (fun x => [word (spelling x)]) (fun _ => True) x₀) :
    Reads φ limit (keyword ofKeyword? e) (keyword ofKeyword? e) c
      (Spelled (fun x => [word (spelling x)]) fun _ => True) := by
  refine Reads.get (fun c' h => by rw [h]) ?_
  dsimp only
  rw [Token.kind_move, Token.text_move]
  generalize hx : (if (c.current.kind == .name) = true then ofKeyword? c.current.text else none) = x
  cases x with
  | none => exact .fail ⟨[word (spelling x₀)], x₀, hx₀.2, rfl, trivial⟩
  | some x =>
    split_ifs at hx with hk
    have hkind : c.current.kind = .name := by simpa using hk
    have he := isEnd_of_hasValue rfl hkind
    refine Reads.advance hc he fun d _ _ => .pure ⟨?_, trivial⟩ (hmove x)
    rw [lexeme_eq_value (hc.valid he) rfl hkind, ← htable.mp hx]

omit hφ hc in
theorem sample_operationType : Sample (fun o : OperationType => [word o.keyword]) (fun _ => True) .query :=
  ⟨trivial, by decide⟩

/-- **An operation is read as it is written**, with its word unless it starts with a brace. -/
theorem reads_operation :
    Reads φ limit (operation l) (operation limit) c
      (Spelled (OperationDefinition.lexemes (c.current.kind != .leftBrace))
        OperationDefinition.Shaped) := by
  obtain ⟨hx₀, hplain⟩ := sample_selectionSet
  refine Reads.start (Reads.ifToken (fun _ => rfl) (fun hbrace => ?_) fun hword => ?_)
  · have hbrace : (c.current.kind != .leftBrace) = false := by simpa using hbrace
    rw [hbrace]
    refine Reads.bind hc (reads_selectionSet hφ hc) (fun x _ hx _ => ?_) fun x hx =>
      ⟨[], ⟨.query, none, [], [], x, .empty 0⟩, rfl, by simp [OperationDefinition.lexemes,
        OperationDefinition.isShorthand], by simp, by simp, hx⟩
    exact Reads.spanFrom hφ fun _ => .pure ⟨by simp [OperationDefinition.lexemes,
      OperationDefinition.isShorthand], by simp, by simp, hx⟩ rfl
  · have hword : (c.current.kind != .leftBrace) = true := by simpa using hword
    rw [hword]
    have hkeyword : Reads φ limit operationType operationType c
        (Spelled (fun o => [word o.keyword]) fun _ => True) :=
      reads_keyword hc OperationType.ofKeyword?_eq_some (fun _ => rfl) sample_operationType
    refine Reads.bind hc hkeyword (fun o d _ hd => ?_) fun o _ =>
      ⟨_, ⟨o, none, [], [], _, .empty 0⟩, hplain, by simp [OperationDefinition.lexemes_true], by simp,
        by simp, hx₀⟩
    refine Reads.bind hd (reads_optional hd (fun _ => rfl) fun _ => reads_name hd)
      (fun n e _ he => ?_) fun n _ =>
      ⟨_, ⟨o, n, [], [], _, .empty 0⟩, hplain, by simp [OperationDefinition.lexemes_true], by simp,
        by simp, hx₀⟩
    refine Reads.bind he (reads_optionalBetween rfl rfl sample_variableDefinition
      (fun _ hc => reads_variableDefinition hφ hc) (fun v _ => by
        simp [VariableDefinition.lexemes]) he) (fun vs f hvs hf => ?_) fun vs hvs =>
      ⟨_, ⟨o, n, vs, [], _, .empty 0⟩, hplain, by simp [OperationDefinition.lexemes_true], hvs,
        by simp, hx₀⟩
    refine Reads.bind hf (reads_directives hφ hf false) (fun ds g hds hg => ?_) fun ds hds =>
      ⟨_, ⟨o, n, vs, ds, _, .empty 0⟩, hplain, by simp [OperationDefinition.lexemes_true],
        hvs, hds, hx₀⟩
    refine Reads.bind hg (reads_selectionSet hφ hg) (fun x _ hx _ => ?_) fun x hx =>
      ⟨[], ⟨o, n, vs, ds, x, .empty 0⟩, rfl, by simp [OperationDefinition.lexemes_true], hvs, hds, hx⟩
    exact Reads.spanFrom hφ fun _ => .pure ⟨by simp [OperationDefinition.lexemes_true], hvs, hds, hx⟩ rfl

/-- **A fragment is read as it is written.** -/
theorem reads_fragment :
    Reads φ limit (fragment l) (fragment limit) c
      (Spelled FragmentDefinition.lexemes FragmentDefinition.Shaped) := by
  obtain ⟨hx₀, hplain⟩ := sample_selectionSet
  have ha : ("a" : String) ≠ "on" := by decide
  let x₀ : SelectionSet := ⟨[.field ⟨none, ⟨"a", .empty 0⟩, [], [], none, .empty 0⟩], .empty 0⟩
  let t₀ : NamedType := ⟨⟨"a", .empty 0⟩, .empty 0⟩
  refine Reads.start ?_
  refine Reads.bind hc (reads_expectWord hc (by decide)) (fun _ d _ hd => ?_) fun _ _ =>
    ⟨word "a" :: word "on" :: word "a" :: x₀.lexemes, ⟨⟨"a", .empty 0⟩, t₀, [], x₀, .empty 0⟩,
      by decide, rfl, ha, by simp, hx₀⟩
  refine Reads.ifToken (fun _ => rfl) (fun _ => .fail ⟨word "a" :: word "on" :: word "a" ::
    x₀.lexemes, ⟨⟨"a", .empty 0⟩, t₀, [], x₀, .empty 0⟩, by decide, rfl, ha, by simp, hx₀⟩)
    fun hon => ?_
  refine Reads.bind hd (reads_name_of (P := (· ≠ "on")) hd (fun hk => ?_) fun _ => ha)
    (fun n e hn he => ?_) fun n hn => ⟨word "on" :: word "a" :: x₀.lexemes,
      ⟨n, t₀, [], x₀, .empty 0⟩, by decide, rfl, hn, by simp, hx₀⟩
  · simpa [Token.isWord, hk] using hon
  refine Reads.bind he (reads_expectWord he (by decide)) (fun _ f _ hf => ?_) fun _ _ =>
    ⟨word "a" :: x₀.lexemes, ⟨n, t₀, [], x₀, .empty 0⟩, by decide, rfl, hn, by simp, hx₀⟩
  refine Reads.bind hf (reads_namedType hf) (fun t g _ hg => ?_) fun t _ =>
    ⟨x₀.lexemes, ⟨n, t, [], x₀, .empty 0⟩, by decide, rfl, hn, by simp, hx₀⟩
  refine Reads.bind hg (reads_directives hφ hg false) (fun ds h hds hh => ?_) fun ds hds =>
    ⟨x₀.lexemes, ⟨n, t, ds, x₀, .empty 0⟩, by decide, by simp [FragmentDefinition.lexemes], hn, hds,
      hx₀⟩
  refine Reads.bind hh (reads_selectionSet hφ hh) (fun x _ hx _ => ?_) fun x hx =>
    ⟨[], ⟨n, t, ds, x, .empty 0⟩, rfl, by simp [FragmentDefinition.lexemes], hn, hds, hx⟩
  exact Reads.spanFrom hφ fun _ => .pure ⟨by simp [FragmentDefinition.lexemes], hn, hds, hx⟩ rfl

end Executable

end QueryDocs.Rule
