import QueryDocs.Proofs.Document.Nested
import QueryDocs.Proofs.RoundTrip

/-! # The tokens of a printed text

The tokens of a text that is read as a document belong to its definitions (`Source.exists_runs`).
Printing the document writes the same tokens in the same order; it leaves out those that
`Document.omits` tells, and no others (`tokens_print`). -/

namespace QueryDocs

open Lexeme (mark word barred)
open QueryDocs.Layout
open Rule (Covers)

/-! ### Tokens that are left out -/

/-- Whether printing leaves out a token of a definition, for the token before it: the word `query`
of an operation that is printed as its selection set alone, and the bar before the first member of a
union or the first place of a directive. -/
def Definition.omits (x : Definition) (previous t : Token) : Bool :=
  x.span.start ≤ t.span.start && t.span.stop ≤ x.span.stop &&
    match x with
    | .operation d => d.isShorthand && t.isWord "query" && t.span.start == d.span.start
    | .type (.union _) => t.kind == .pipe && previous.kind == .equals
    | .extension ⟨.union _, _⟩ => t.kind == .pipe && previous.kind == .equals
    | .directive _ => t.kind == .pipe && previous.isWord "on"
    | _ => false

/-- Whether printing leaves out a token of a document, for the token before it. -/
def Document.omits (d : Document) (previous t : Token) : Bool :=
  d.definitions.any (·.omits previous t)

/-- The tokens of a list that are not left out, for the token before the list. -/
def kept (omits : Token → Token → Bool) : Token → List Token → List Token
  | _, [] => []
  | previous, t :: ts =>
    if omits previous t then kept omits t ts else t :: kept omits t ts

section Kept
variable {o o' : Token → Token → Bool} {p : Token} {ts us : List Token}

theorem kept_append :
    kept o p (ts ++ us) = kept o p ts ++ kept o (ts.getLast?.getD p) us := by
  induction ts generalizing p with
  | nil => rfl
  | cons t ts ih =>
    have hlast : (t :: ts).getLast?.getD p = ts.getLast?.getD t := by
      cases ts with
      | nil => rfl
      | cons u us => rw [List.getLast?_cons_cons, List.getLast?_eq_some_getLast (by simp)]; rfl
    rw [List.cons_append, kept, kept, hlast, ih]
    split_ifs <;> rfl

theorem kept_congr (h : ∀ p, ∀ t ∈ ts, o p t = o' p t) : kept o p ts = kept o' p ts := by
  induction ts generalizing p with
  | nil => rfl
  | cons t ts ih =>
    obtain ⟨ht, hts⟩ := List.forall_mem_cons.mp fun t ht p => h p t ht
    rw [kept, kept, ht, ih fun p t ht => hts t ht p]

theorem kept_eq_self (h : ∀ p, ∀ t ∈ ts, o p t = false) : kept o p ts = ts := by
  induction ts generalizing p with
  | nil => rfl
  | cons t ts ih =>
    obtain ⟨ht, hts⟩ := List.forall_mem_cons.mp fun t ht p => h p t ht
    rw [kept, ht, ih fun p t ht => hts t ht p]
    rfl

theorem kept_of_not_separates {separates : Token → Bool}
    (ho : ∀ p t, o p t = true → separates p = true) (hp : separates p = false)
    (hts : ∀ t ∈ ts, separates t = false) : kept o p ts = ts := by
  induction ts generalizing p with
  | nil => rfl
  | cons t ts ih =>
    obtain ⟨ht, hts⟩ := List.forall_mem_cons.mp hts
    have hnot : o p t = false := by
      by_contra h
      rw [ho p t (by simpa using h)] at hp
      cases hp
    rw [kept, hnot, ih ht hts]
    rfl

theorem kept_barred {α : Type} {f : α → List Lexeme} {x : α} {xs : List α} {full : Bool}
    {as bs : List Token} {e : Token} (separates : Token → Bool)
    (ho : ∀ p t, o p t = true → t.kind = .pipe ∧ separates p = true)
    (has : ∀ t ∈ as, t.kind ≠ .pipe) (he : e.kind ≠ .pipe)
    (hbs : bs.map Token.lexeme = leadingBar full ++ barred f (x :: xs))
    (hsep : ∀ t ∈ bs, separates t = false) (hx : ∀ l ∈ (f x).head?, l.1 ≠ .pipe) (hne : f x ≠ [])
    (hbar : ∀ t ∈ bs, t.kind = .pipe → o e t = true) :
    (kept o p (as ++ e :: bs)).map Token.lexeme =
      as.map Token.lexeme ++ e.lexeme :: barred f (x :: xs) := by
  have hnot : ∀ {p t : Token}, t.kind ≠ .pipe → o p t = false := fun ht =>
    Bool.eq_false_iff.mpr fun h => ht (ho _ _ h).1
  have hkept : (kept o e bs).map Token.lexeme = barred f (x :: xs) := by
    cases bs with
    | nil =>
      cases full with
      | true => cases hbs
      | false =>
        have hnil : f x ++ xs.flatMap (fun x => mark .pipe :: f x) = [] := hbs.symm
        exact absurd (List.append_eq_nil_iff.mp hnil).1 hne
    | cons b bs =>
      have hrest : kept o b bs = bs :=
        kept_of_not_separates (fun p t h => (ho p t h).2) (hsep b (by simp))
          fun t ht => hsep t (by simp [ht])
      cases full with
      | true =>
        obtain ⟨hb, hbs⟩ := List.cons.inj hbs
        rw [kept, hbar b (by simp) (congrArg Prod.fst hb), if_pos rfl, hrest]
        exact hbs
      | false =>
        have hb : b.lexeme ∈ (f x).head? := by
          obtain ⟨l, ls, hl⟩ := List.exists_cons_of_ne_nil hne
          rw [hl]
          have := congrArg List.head? hbs
          simpa [leadingBar, barred, hl] using this.symm
        rw [kept, hnot (hx _ hb), if_neg (by simp), hrest]
        exact hbs
  rw [kept_append, kept_eq_self fun p t ht => hnot (has t ht), kept, hnot he, if_neg (by simp)]
  rw [List.map_append, List.map_cons, hkept]

end Kept

/-! ### The tokens of a definition -/

/-- Tokens take up some bytes each, one behind the other. -/
structure Ordered (ts : List Token) : Prop where
  pos : ∀ t ∈ ts, t.span.start < t.span.stop
  pairwise : ts.Pairwise fun t u => t.span.stop ≤ u.span.start

section Definition
variable {x : Definition} {ts us : List Token} {p : Token}

theorem Tokenizes.ordered {s : Source} (h : Tokenizes 0 s.chars ts (.endOfText s.size)) :
    Ordered ts ∧ ∀ t ∈ ts, t.span.stop ≤ s.size := by
  obtain ⟨offset, rest, hscans, -, -⟩ := h
  obtain ⟨-, hin, hpairwise⟩ := hscans.spans
  have hsize : offset ≤ s.size := Source.IsBoundary.le_size ⟨_, hscans.textFrom s.textFrom_zero⟩
  exact ⟨⟨fun t ht => (hin t ht).2.1, hpairwise⟩, fun t ht => (hin t ht).2.2.trans hsize⟩

theorem Ordered.of_append (h : Ordered (ts ++ us)) :
    Ordered ts ∧ Ordered us ∧ ∀ t ∈ ts, ∀ u ∈ us, t.span.stop ≤ u.span.start := by
  obtain ⟨ht, hu, hall⟩ := List.pairwise_append.mp h.pairwise
  exact ⟨⟨fun t h' => h.pos t (List.mem_append_left us h'), ht⟩,
    ⟨fun u h' => h.pos u (List.mem_append_right ts h'), hu⟩, hall⟩

theorem Ordered.of_mem {runs : List (Definition × List Token)} {r : Definition × List Token}
    (h : Ordered (runs.flatMap Prod.snd)) (hr : r ∈ runs) : Ordered r.2 := by
  obtain ⟨front, back, rfl⟩ := List.append_of_mem hr
  rw [List.flatMap_append, List.flatMap_cons] at h
  exact h.of_append.2.1.of_append.1

theorem Ordered.stretch (h : Ordered ts) (hus : us <:+: ts) : Ordered us := by
  obtain ⟨front, back, rfl⟩ := hus
  exact h.of_append.1.of_append.2.1

theorem Ordered.inside {first last : Token} (ho : Ordered ts) (hfirst : first ∈ ts.head?)
    (hlast : last ∈ ts.getLast?) :
    ∀ t ∈ ts, first.span.start ≤ t.span.start ∧ t.span.stop ≤ last.span.stop := by
  obtain ⟨rest, rfl⟩ := List.head?_eq_some_iff.mp hfirst
  obtain ⟨front, hfront⟩ := List.getLast?_eq_some_iff.mp hlast
  have hp := ho.pairwise
  intro t ht
  constructor
  · rcases List.mem_cons.mp ht with rfl | ht
    · exact le_rfl
    · have := (List.pairwise_cons.mp hp).1 t ht
      have := ho.pos first (by simp)
      omega
  · have hpos := ho.pos last (by rw [hfront]; simp)
    rw [hfront] at hp ht
    rcases List.mem_append.mp ht with ht | ht
    · have := (List.pairwise_append.mp hp).2.2 t ht last (by simp)
      omega
    · rw [List.mem_singleton.mp ht]

theorem Rule.Covers.inside (h : Covers x ts) (ho : Ordered ts) :
    ∀ t ∈ ts, x.span.start ≤ t.span.start ∧ t.span.stop ≤ x.span.stop := by
  obtain ⟨first, hfirst, last, hlast, hspan⟩ := h.span
  intro t ht
  obtain ⟨hstart, hstop⟩ := ho.inside hfirst hlast t ht
  rw [hspan]
  exact ⟨hstart, le_max_of_le_left hstop⟩

theorem Rule.Covers.start_ne {t : Token} (h : Covers x (t :: ts)) (ho : Ordered (t :: ts)) :
    x.span.start = t.span.start ∧ ∀ u ∈ ts, u.span.start ≠ x.span.start := by
  obtain ⟨first, hfirst, last, hlast, hspan⟩ := h.span
  cases hfirst
  refine ⟨by rw [hspan], fun u hu => ?_⟩
  have := (List.pairwise_cons.mp ho.pairwise).1 u hu
  have := ho.pos t (by simp)
  rw [hspan]
  change u.span.start ≠ t.span.start
  omega

theorem kind_of_lexemes {k : Token.Kind} {ls : List Lexeme} (h : ts.map Token.lexeme = ls)
    (hls : ∀ l ∈ ls, l.1 ≠ k) : ∀ t ∈ ts, t.kind ≠ k :=
  fun t ht => hls t.lexeme (h ▸ List.mem_map_of_mem ht)

theorem isWord_of_lexeme {t : Token} {l : Lexeme} {w : String} (h : t.lexeme = l) :
    t.isWord w = (l.1 == .name && l.2.getD "" == w) := by
  rw [← h]
  rfl

theorem mem_barred {α : Type} {f : α → List Lexeme} {xs : List α} {l : Lexeme}
    (h : l ∈ barred f xs) : l = mark .pipe ∨ ∃ x ∈ xs, l ∈ f x := by
  cases xs with
  | nil => cases h
  | cons y ys =>
    rcases List.mem_append.mp h with h | h
    · exact Or.inr ⟨y, by simp, h⟩
    · obtain ⟨x, hx, h⟩ := List.mem_flatMap.mp h
      rcases List.mem_cons.mp h with rfl | h
      · exact Or.inl rfl
      · exact Or.inr ⟨x, by simp [hx], h⟩

theorem mem_bars {α : Type} {f : α → List Lexeme} {xs : List α} {l : Lexeme} {full : Bool}
    (h : l ∈ leadingBar full ++ barred f xs) : l = mark .pipe ∨ ∃ x ∈ xs, l ∈ f x := by
  rcases List.mem_append.mp h with h | h
  · cases full with
    | true => exact Or.inl (List.mem_singleton.mp h)
    | false => cases h
  · exact mem_barred h

theorem kept_members {o : Token → Token → Bool} {ls : List Lexeme} {full : Bool}
    {ms : List NamedType} (ho : ∀ p t, o p t = true → t.kind = .pipe ∧ p.kind = .equals)
    (hbar : ∀ p, p.kind = .equals → ∀ t ∈ ts, t.kind = .pipe → o p t = true)
    (hls : ∀ l ∈ ls, l.1 ≠ .pipe) (h : ts.map Token.lexeme = ls ++ memberLexemes full ms) :
    (kept o p ts).map Token.lexeme = ls ++ memberLexemes false ms := by
  obtain ⟨as, bs, rfl, rfl, hbs⟩ := List.map_eq_append_iff.mp h
  have has := kind_of_lexemes rfl hls
  cases ms with
  | nil =>
    obtain rfl := List.map_eq_nil_iff.mp hbs
    rw [List.append_nil, kept_eq_self fun p t ht =>
      Bool.eq_false_iff.mpr fun h => has t ht (ho p t h).1]
    simp
  | cons m ms =>
    obtain ⟨e, bs, rfl, he, hbs⟩ := List.map_eq_cons_iff.mp hbs
    have hkind : e.kind = .equals := congrArg Prod.fst he
    have hbs : bs.map Token.lexeme = leadingBar full ++ barred NamedType.lexemes (m :: ms) := hbs
    rw [kept_barred (fun t => t.kind == .equals) (fun p t h => ?_) has
      (by rw [hkind]; decide) hbs (fun t ht => ?_) (by simp [NamedType.lexemes])
      (by simp [NamedType.lexemes]) (fun t ht => hbar e hkind t (by simp [ht])), he]
    · rfl
    · simpa using ho p t h
    · have hmem : t.lexeme ∈ leadingBar full ++ barred NamedType.lexemes (m :: ms) :=
        hbs ▸ List.mem_map_of_mem ht
      rcases mem_bars hmem with h | ⟨x, -, h⟩
      · rw [show t.kind = .pipe from congrArg Prod.fst h]
        rfl
      · rw [show t.kind = .name from congrArg Prod.fst (List.mem_singleton.mp h)]
        rfl

theorem kept_union {ls : List Lexeme} {full : Bool} {ms : List NamedType} (h : Covers x ts)
    (ho : Ordered ts) (hls : ∀ l ∈ ls, l.1 ≠ .pipe)
    (homits : ∀ p t, x.omits p t = (decide (x.span.start ≤ t.span.start) &&
      decide (t.span.stop ≤ x.span.stop) && (t.kind == .pipe && p.kind == .equals)))
    (hwritten : ts.map Token.lexeme = ls ++ memberLexemes full ms) :
    (kept x.omits p ts).map Token.lexeme = ls ++ memberLexemes false ms := by
  refine kept_members (fun p t h => ?_) (fun p hp t ht hk => ?_) hls hwritten
  · simp only [homits, Bool.and_eq_true, beq_iff_eq] at h
    exact h.2
  · simpa [homits, hp, hk] using h.inside ho t ht

theorem kept_places {o : Token → Token → Bool} {ls : List Lexeme} {full : Bool}
    {ks : List DirectiveLocation} (hks : ks ≠ [])
    (ho : ∀ p t, o p t = true → t.kind = .pipe ∧ p.isWord "on" = true)
    (hbar : ∀ p, p.isWord "on" = true → ∀ t ∈ ts, t.kind = .pipe → o p t = true)
    (hls : ∀ l ∈ ls, l.1 ≠ .pipe)
    (h : ts.map Token.lexeme =
      ls ++ word "on" :: (leadingBar full ++ barred (fun k => [word k.keyword]) ks)) :
    (kept o p ts).map Token.lexeme = ls ++ word "on" :: barred (fun k => [word k.keyword]) ks := by
  obtain ⟨as, bs, rfl, rfl, hbs⟩ := List.map_eq_append_iff.mp h
  obtain ⟨e, bs, rfl, he, hbs⟩ := List.map_eq_cons_iff.mp hbs
  obtain ⟨k, ks, rfl⟩ := List.exists_cons_of_ne_nil hks
  have hkind : e.kind = .name := congrArg Prod.fst he
  rw [kept_barred (·.isWord "on") ho (kind_of_lexemes rfl hls)
    (by rw [hkind]; decide) hbs (fun t ht => ?_) (by simp) (by simp)
    (fun t ht => hbar e (isWord_of_lexeme he) t (by simp [ht])), he]
  have hmem : t.lexeme ∈ leadingBar full ++ barred (fun k => [word k.keyword]) (k :: ks) :=
    hbs ▸ List.mem_map_of_mem ht
  rcases mem_bars hmem with h | ⟨k, -, h⟩
  · rw [isWord_of_lexeme h]
    rfl
  · rw [isWord_of_lexeme (List.mem_singleton.mp h)]
    cases k <;> decide

theorem kept_operation {d : OperationDefinition} (h : Covers (.operation d) ts) (ho : Ordered ts) :
    (kept (Definition.omits (.operation d)) p ts).map Token.lexeme = d.lexemes false := by
  obtain ⟨full, hfull⟩ := h.written
  have hfull : ts.map Token.lexeme = d.lexemes full := hfull
  cases ts with
  | nil => exact absurd hfull.symm ((Definition.operation d).lexemes_ne_nil full)
  | cons t ts =>
    obtain ⟨hstart, hrest⟩ := h.start_ne ho
    have hrest : ∀ p, ∀ u ∈ ts, (Definition.operation d).omits p u = false := by
      intro p u hu
      have : u.span.start ≠ d.span.start := hrest u hu
      simp [Definition.omits, this]
    by_cases hd : d.isShorthand = true
    · cases full with
      | true =>
        -- the word is there, and it is the first token
        rw [OperationDefinition.lexemes, if_pos hd] at hfull
        obtain ⟨ht, hts⟩ := List.cons.inj hfull
        have hword : t.isWord "query" = true := by
          rw [isWord_of_lexeme ht]
          rfl
        have hin := h.inside ho t (by simp)
        have homits : (Definition.operation d).omits p t = true := by
          simp only [Definition.omits, Bool.and_eq_true, decide_eq_true_eq, beq_iff_eq]
          exact ⟨hin, ⟨hd, hword⟩, hstart.symm⟩
        rw [kept, homits, if_pos rfl, kept_eq_self hrest, OperationDefinition.lexemes_of_isShorthand hd]
        exact hts
      | false =>
        have ht : t.lexeme = mark .leftBrace := by
          cases hset : d.selectionSet with
          | mk xs s =>
            rw [OperationDefinition.lexemes_of_isShorthand hd, hset, SelectionSet.lexemes] at hfull
            exact (List.cons.inj hfull).1
        rw [kept_eq_self, hfull]
        refine fun p => List.forall_mem_cons.mpr ⟨?_, hrest p⟩
        simp [Definition.omits, isWord_of_lexeme ht]
    · have hd : d.isShorthand = false := by simpa using hd
      have hall : ∀ b, d.lexemes b = d.lexemes true := fun b =>
        OperationDefinition.lexemes_eq_true (by simp [hd])
      rw [kept_eq_self fun p t _ => by simp [Definition.omits, hd], hfull, hall full, hall false]

/-- **A definition is printed with the tokens it was read from**, less those that are left out. -/
theorem kept_definition (h : Covers x ts) (ho : Ordered ts) :
    (kept x.omits p ts).map Token.lexeme = x.lexemes false := by
  obtain ⟨full, hfull⟩ := h.written
  have hself : (∀ p t, x.omits p t = false) → x.lexemes full = x.lexemes false →
      (kept x.omits p ts).map Token.lexeme = x.lexemes false := fun hno hls => by
    rw [kept_eq_self fun p t _ => hno p t, hfull, hls]
  cases x with
  | operation d => exact kept_operation h ho
  | fragment d => exact hself (by simp [Definition.omits]) rfl
  | schema d => exact hself (by simp [Definition.omits]) rfl
  | type d =>
    cases d with
    | union d =>
      exact kept_union h ho (Nested.append (nested_type _ _ _) (nested_directives _)).kind_ne_pipe
        (fun _ _ => rfl) hfull
    | _ => exact hself (by simp [Definition.omits]) rfl
  | directive d =>
    rw [Definition.lexemes, DirectiveDefinition.lexemes, List.append_assoc] at hfull ⊢
    refine kept_places h.shaped.2 (fun p t h => ?_) (fun p hp t ht hk => ?_)
      (Nested.append (.append (nested_description _) (.cons rfl (.cons rfl (.cons rfl
        (nested_declared _))))) ?_).kind_ne_pipe hfull
    · simp only [Definition.omits, Bool.and_eq_true, beq_iff_eq] at h
      exact h.2
    · simpa [Definition.omits, hp, hk] using h.inside ho t ht
    · split_ifs
      · exact .token rfl
      · exact .nil
  | extension e =>
    obtain ⟨d, s⟩ := e
    cases d with
    | union d =>
      exact kept_union h ho
        (Nested.cons rfl (.append (nested_type _ _ _) (nested_directives _))).kind_ne_pipe
        (fun _ _ => rfl) hfull
    | _ => exact hself (by simp [Definition.omits]) rfl

end Definition

/-! ### The tokens of a document -/

section Runs
variable {d : Document} {x : Definition} {s : Source} {p t : Token} {ts us : List Token}

theorem Rule.Covers.omits_eq_false (h : Covers x us) (ho : Ordered us) (ht : t.span.start < t.span.stop)
    (hus : (∀ u ∈ us, u.span.stop ≤ t.span.start) ∨ ∀ u ∈ us, t.span.stop ≤ u.span.start) :
    x.omits p t = false := by
  obtain ⟨first, hfirst, last, hlast, hspan⟩ := h.span
  have hf := List.mem_of_head? hfirst
  have hl := List.mem_of_getLast? hlast
  have hpos := ho.pos first hf
  refine Bool.eq_false_iff.mpr fun homits => ?_
  unfold Definition.omits at homits
  rw [hspan] at homits
  simp only [Bool.and_eq_true, decide_eq_true_eq] at homits
  obtain ⟨⟨hstart, hstop⟩, -⟩ := homits
  rcases hus with h | h
  · have := h first hf
    have := h last hl
    omega
  · have := h first hf
    omega

/-- **A document is printed with the tokens it was read from**, less those that are left out. -/
theorem kept_runs {runs before : List (Definition × List Token)}
    (hd : d.definitions = (before ++ runs).map Prod.fst)
    (ho : Ordered ((before ++ runs).flatMap Prod.snd))
    (hc : ∀ r ∈ before ++ runs, Covers r.1 r.2) :
    (kept d.omits p (runs.flatMap Prod.snd)).map Token.lexeme =
      runs.flatMap fun r => r.1.lexemes false := by
  induction runs generalizing before p with
  | nil => rfl
  | cons r runs ih =>
    have ho' := ho
    rw [List.flatMap_append, List.flatMap_cons] at ho'
    obtain ⟨hobefore, hrest, hbefore⟩ := ho'.of_append
    obtain ⟨hor, horuns, hbehind⟩ := hrest.of_append
    -- only the definition at hand can leave out a token of its run
    have hown : ∀ q, ∀ t ∈ r.2, d.omits q t = r.1.omits q t := by
      intro q t ht
      have hpos := hor.pos t ht
      have hearlier : ∀ y ∈ before, y.1.omits q t = false := fun y hy =>
        (hc y (by simp [hy])).omits_eq_false (hobefore.of_mem hy) hpos <| Or.inl fun u hu =>
          hbefore u (List.mem_flatMap.mpr ⟨y, hy, hu⟩) t (List.mem_append_left _ ht)
      have hlater : ∀ y ∈ runs, y.1.omits q t = false := fun y hy =>
        (hc y (by simp [hy])).omits_eq_false (horuns.of_mem hy) hpos <| Or.inr fun u hu =>
          hbehind t ht u (List.mem_flatMap.mpr ⟨y, hy, hu⟩)
      have hnone : ∀ {ys : List (Definition × List Token)}, (∀ y ∈ ys, y.1.omits q t = false) →
          (ys.map Prod.fst).any (·.omits q t) = false := fun h => by simpa using h
      rw [Document.omits, hd, List.map_append, List.map_cons, List.any_append, List.any_cons,
        hnone hearlier, hnone hlater, Bool.false_or, Bool.or_false]
    have hbefore' : before ++ r :: runs = (before ++ [r]) ++ runs := by simp
    rw [hbefore'] at hd ho hc
    rw [List.flatMap_cons, List.flatMap_cons, kept_append, List.map_append, kept_congr hown,
      kept_definition (hc r (by simp)) hor, ih hd ho hc]

/-- **The tokens of a text that is read as a document belong to its definitions.** -/
theorem Source.exists_runs (h : s.parse = .ok d) :
    ∃ (runs : List (Definition × List Token)) (n : Nat), d.definitions = runs.map Prod.fst ∧
      TokenStream.ofSource s = .prepend (runs.flatMap Prod.snd) (.finish (.endOfText n)) ∧
      Ordered (runs.flatMap Prod.snd) ∧ (∀ t ∈ runs.flatMap Prod.snd, t.lexeme.Valid) ∧
      ∀ r ∈ runs, Covers r.1 r.2 := by
  have hproper : (TokenStream.ofSource s).Proper := TokenStream.proper_ofSource _
  obtain ⟨c, e, hc, hr⟩ := TokenStream.exists_of_parse_ok (Source.stream_of_parse h)
  obtain ⟨hbefore, -⟩ := Cursor.before_of_advance hproper hc
  obtain ⟨hend, runs, hruns, hpasses, hcovers⟩ :=
    Rule.definitions_ok le_rfl (hbefore.within hproper) hr
  obtain ⟨s', hs, he⟩ := hpasses.before hproper hbefore
  cases he with
  | token hnot =>
    rw [hend] at hnot
    cases hnot
  | finish =>
    obtain ⟨offset, rest, limit, hscans, hl, hlast⟩ := scans_of_ofChars (Nat.lt_succ_self _) hs
    obtain ⟨rest', hscan⟩ := scan_of_head? hl (by rw [← hlast]; rfl)
    obtain ⟨rfl, -⟩ := scan_of_end hscan hend
    obtain ⟨-, hpos, hpairwise⟩ := hscans.spans
    exact ⟨runs, _, hruns.symm, hs, ⟨fun t ht => (hpos t ht).2.1, hpairwise⟩, hscans.valid, hcovers⟩

theorem mem_of_mem_kept {o : Token → Token → Bool} (h : t ∈ kept o p ts) : t ∈ ts := by
  induction ts generalizing p with
  | nil => exact h
  | cons u ts ih =>
    rw [kept] at h
    split_ifs at h
    · exact List.mem_cons_of_mem u (ih h)
    · rcases List.mem_cons.mp h with rfl | h
      · exact List.mem_cons_self
      · exact List.mem_cons_of_mem u (ih h)

theorem kept_document {runs : List (Definition × List Token)}
    (hd : d.definitions = runs.map Prod.fst) (ho : Ordered (runs.flatMap Prod.snd))
    (hc : ∀ r ∈ runs, Covers r.1 r.2) :
    (kept d.omits p (runs.flatMap Prod.snd)).map Token.lexeme = d.lexemes := by
  have hd' : d.definitions = ([] ++ runs).map Prod.fst := hd
  rw [kept_runs hd' ho hc, Document.lexemes, hd, List.flatMap_map]

/-- **A document that was read is well formed.** -/
theorem Source.wellFormed_of_parse (h : s.parse = .ok d) : d.WellFormed := by
  obtain ⟨runs, n, hd, -, hordered, hvalid, hcovers⟩ := Source.exists_runs h
  constructor
  · intro l hl
    rw [← kept_document (p := .startOfText) hd hordered hcovers] at hl
    obtain ⟨t, ht, rfl⟩ := List.mem_map.mp hl
    exact hvalid t (mem_of_mem_kept ht)
  · intro x hx
    rw [hd] at hx
    obtain ⟨r, hr, rfl⟩ := List.mem_map.mp hx
    exact (hcovers r hr).shaped

end Runs

end QueryDocs
