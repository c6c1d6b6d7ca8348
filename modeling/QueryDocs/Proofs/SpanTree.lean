import QueryDocs.Proofs.Excerpt
import QueryDocs.Proofs.Grammar.LaysDocument

/-! # The tree of spans

The spans of a document that was read nest as its nodes do: every node goes from the start of a token
to the end of one, around its children, which follow each other, and a node that is written as its text
covers it (`Source.span_tree`). -/

namespace QueryDocs

/-! ### Nodes over ordered tokens -/

namespace Node

section Placed
variable {n m : Node} {ns : List Node} {ts us : List Token} {d : Document}

theorem Placed.span (h : Placed n ts) (ho : Ordered ts) :
    ∃ first ∈ ts.head?, ∃ last ∈ ts.getLast?, n.span = ⟨first.span.start, last.span.stop⟩ ∧
      first.span.start < last.span.stop := by
  obtain ⟨first, hfirst, last, hlast, hstart, hstop⟩ := h.covers
  have hpos := ho.pos first (List.mem_of_mem_head? hfirst)
  obtain ⟨-, hle⟩ := ho.inside hfirst hlast first (List.mem_of_mem_head? hfirst)
  have hlt : first.span.start < last.span.stop := by omega
  have hspan : n.span = ⟨first.span.start, last.span.stop⟩ := by rw [← hstart, ← hstop hlt.le]
  exact ⟨first, hfirst, last, hlast, hspan, hlt⟩

theorem Placed.inside (h : Placed n ts) (ho : Ordered ts) :
    ∀ t ∈ ts, n.span.start ≤ t.span.start ∧ t.span.stop ≤ n.span.stop := by
  obtain ⟨first, hfirst, last, hlast, hspan, -⟩ := h.span ho
  rw [hspan]
  exact ho.inside hfirst hlast

theorem Laid.exists_placed (h : Laid ns ts) (hm : m ∈ ns) : ∃ us, us <:+: ts ∧ Placed m us := by
  induction ns generalizing ts with
  | nil => cases hm
  | cons n ns ih =>
    cases h with
    | cons gap hn hns =>
      rcases List.mem_cons.mp hm with rfl | hm
      · exact ⟨_, ⟨gap, _, rfl⟩, hn⟩
      · obtain ⟨us, hus, hplaced⟩ := ih hns hm
        exact ⟨us, hus.trans (List.suffix_append _ _).isInfix, hplaced⟩

theorem Laid.pairwise (h : Laid ns ts) (ho : Ordered ts) :
    ns.Pairwise fun n m => n.span.stop ≤ m.span.start := by
  induction ns generalizing ts with
  | nil => exact .nil
  | cons n ns ih =>
    cases h with
    | @cons _ _ ts us gap hn hns =>
      obtain ⟨hts, hus, hle⟩ := ho.of_append
      refine List.pairwise_cons.mpr ⟨fun m hm => ?_, ih hns hus⟩
      obtain ⟨vs, hvs, hplaced⟩ := hns.exists_placed hm
      obtain ⟨_, -, last, hlast, hspan, -⟩ := hn.span hts.of_append.2.1
      obtain ⟨first, hfirst, _, -, hspan', -⟩ := hplaced.span (hus.stretch hvs)
      rw [hspan, hspan']
      exact hle last (List.mem_append_right gap (List.mem_of_mem_getLast? hlast)) first
        (hvs.subset (List.mem_of_mem_head? hfirst))

theorem Placed.of_holds (h : Placed n ts) (hm : n.Holds m) : ∃ us, us <:+: ts ∧ Placed m us := by
  induction hm with
  | refl => exact ⟨ts, List.infix_refl ts, h⟩
  | tail _ hm ih =>
    obtain ⟨us, hus, hplaced⟩ := ih
    obtain ⟨vs, hvs, hchild⟩ := hplaced.laid_children.exists_placed hm
    exact ⟨vs, hvs.trans hus, hchild⟩

theorem Laid.of_holds (h : Laid (d.definitions.map definition) ts) (hn : (document d).Holds n) :
    n = document d ∨ ∃ us, us <:+: ts ∧ Placed n us := by
  rcases hn.cases_head with hd | ⟨m, hm, hn⟩
  · exact .inl hd.symm
  · obtain ⟨us, hus, hplaced⟩ := h.exists_placed hm
    obtain ⟨vs, hvs, hplaced⟩ := hplaced.of_holds hn
    exact .inr ⟨vs, hvs.trans hus, hplaced⟩

theorem lexeme_of_text {text : String} (h : text ∈ n.text?) :
    ∃ k ∈ [Token.Kind.name, .int, .float], n.lexeme? = some (k, some text) := by
  cases n with
  | name => cases h; exact ⟨.name, by simp, rfl⟩
  | value v =>
    cases v with
    | int => cases h; exact ⟨.int, by simp, rfl⟩
    | float => cases h; exact ⟨.float, by simp, rfl⟩
    | boolean | null | enum => cases h; exact ⟨.name, by simp, rfl⟩
    | _ => cases h
  | _ => cases h

theorem Placed.token (h : Placed n ts) {l : Lexeme} (hl : n.lexeme? = some l) :
    ∃ t, ts = [t] ∧ t.lexeme = l := by
  cases h with
  | intro _ leaf => exact List.map_eq_singleton_iff.mp (leaf l hl)

end Placed

/-! ### The spans of a text -/

/-- How the span of a node lies in a text and around the spans of its children. -/
structure Nested (s : Source) (n : Node) : Prop where
  le : n.span.start ≤ n.span.stop
  within : n.span.stop ≤ s.size
  inside : ∀ m ∈ n.children, n.span.start ≤ m.span.start ∧ m.span.stop ≤ n.span.stop
  disjoint : n.children.Pairwise fun m m' => m.span.stop ≤ m'.span.start
  text : ∀ text ∈ n.text?, s.slice? n.span = some text

end Node

/-- A span goes from the start of a token to the end of a token. -/
structure Span.Aligned (ts : List Token) (x : Span) : Prop where
  start : ∃ t ∈ ts, t.isEnd = false ∧ t.span.start = x.start
  stop : ∃ t ∈ ts, t.isEnd = false ∧ t.span.stop = x.stop

section SpanTree
variable {s : Source} {ts us : List Token} {c : Cursor} {d : Document} {n : Node}

theorem Source.Opens.ordered (h : s.Opens ts c) : Ordered ts ∧ ∀ t ∈ ts, t.span.stop ≤ s.size :=
  h.tokens.ordered

theorem Node.Placed.nested (h : n.Placed us) (hopen : s.Opens ts c) (hus : us <:+: ts) :
    n.Nested s := by
  obtain ⟨ho, hbound⟩ := hopen.ordered
  have hown := ho.stretch hus
  obtain ⟨first, hfirst, last, hlast, hspan, hlt⟩ := h.span hown
  refine ⟨by rw [hspan]; exact hlt.le, ?_, fun m hm => ?_, h.laid_children.pairwise hown,
    fun text htext => ?_⟩
  · rw [hspan]
    exact hbound last (hus.subset (List.mem_of_mem_getLast? hlast))
  · obtain ⟨vs, hvs, hplaced⟩ := h.laid_children.exists_placed hm
    obtain ⟨first, hfirst, last, hlast, hspan, -⟩ := hplaced.span (hown.stretch hvs)
    rw [hspan]
    exact ⟨(h.inside hown first (hvs.subset (List.mem_of_mem_head? hfirst))).1,
      (h.inside hown last (hvs.subset (List.mem_of_mem_getLast? hlast))).2⟩
  · obtain ⟨k, hk, hlexeme⟩ := Node.lexeme_of_text htext
    obtain ⟨t, rfl, ht⟩ := h.token hlexeme
    obtain ⟨offset, rest, hscans, -, -⟩ := hopen.tokens
    have hkind : t.kind = k := congrArg Prod.fst ht
    have hvalue : t.value = some text := congrArg Prod.snd ht
    have hslice := Source.slice?_of_scans hscans (hus.subset List.mem_cons_self) (by rwa [hkind])
    rw [Token.text, hvalue] at hslice
    cases hfirst
    cases hlast
    rw [hspan]
    exact hslice

theorem Node.Placed.aligned (h : n.Placed us) (hopen : s.Opens ts c) (hus : us <:+: ts) :
    n.span.Aligned ts := by
  obtain ⟨first, hfirst, last, hlast, hspan, -⟩ := h.span (hopen.ordered.1.stretch hus)
  obtain ⟨offset, rest, hscans, -, -⟩ := hopen.tokens
  have hmem := hus.subset (List.mem_of_mem_head? hfirst)
  have hmem' := hus.subset (List.mem_of_mem_getLast? hlast)
  rw [hspan]
  exact ⟨⟨first, hmem, Token.isEnd_eq_false_of_valid (hscans.valid first hmem), rfl⟩,
    ⟨last, hmem', Token.isEnd_eq_false_of_valid (hscans.valid last hmem'), rfl⟩⟩

/-- **The spans of a document nest as its nodes do.** -/
theorem Source.span_tree (h : s.parse = .ok d) : d.span = ⟨0, s.size⟩ ∧
    ∃ ts, s.tokens = .ok ts ∧ ∀ n, (Node.document d).Holds n →
      n.Nested s ∧ (n = .document d ∨ n.span.Aligned ts) := by
  obtain ⟨hspan, ts, c, e, hopen, hrun⟩ := Source.run_of_parse h
  obtain ⟨us, hp, hlaid⟩ := hrun.laid hopen.within
  obtain ⟨rfl, -⟩ := hopen.stop hp hrun.isEnd
  obtain ⟨ho, hbound⟩ := hopen.ordered
  have htokens : s.tokens = .ok (us ++ [.endOfText s.size]) := by
    rw [Source.tokens, hopen.tokens.ofSource, TokenStream.toList_prepend_finish]
  refine ⟨hspan, _, htokens, fun n hn => ?_⟩
  rcases hlaid.of_holds hn with rfl | ⟨vs, hvs, hplaced⟩
  · refine ⟨⟨?_, ?_, fun m hm => ?_, hlaid.pairwise ho, by simp [Node.text?]⟩, .inl rfl⟩
    · simp [Node.span, hspan]
    · simp [Node.span, hspan]
    · obtain ⟨vs, hvs, hplaced⟩ := hlaid.exists_placed hm
      have hnested := hplaced.nested hopen hvs
      simpa [Node.span, hspan] using hnested.within
  · refine ⟨hplaced.nested hopen hvs, .inr ?_⟩
    obtain ⟨⟨t, ht, hstart⟩, u, hu, hstop⟩ := hplaced.aligned hopen hvs
    exact ⟨⟨t, List.mem_append_left _ ht, hstart⟩, ⟨u, List.mem_append_left _ hu, hstop⟩⟩

/-- A field with an alias lies in its selection set. -/
theorem Source.span_tree_alias : ∃ d ts n, Source.parse ⟨"\x7b a: b(c: 1) \x7d", none⟩ = .ok d ∧
    Source.tokens ⟨"\x7b a: b(c: 1) \x7d", none⟩ = .ok ts ∧ (Node.document d).Holds n ∧
      n.span = ⟨2, 12⟩ ∧ n.Nested ⟨"\x7b a: b(c: 1) \x7d", none⟩ ∧ n.span.Aligned ts := by
  have hparse : Source.parse ⟨"\x7b a: b(c: 1) \x7d", none⟩ = .ok ⟨[.operation ⟨.query, none, [], [],
      ⟨[.field ⟨some ⟨"a", ⟨2, 3⟩⟩, ⟨"b", ⟨5, 6⟩⟩, [⟨⟨"c", ⟨7, 8⟩⟩, .int ⟨"1", ⟨10, 11⟩⟩, ⟨7, 11⟩⟩], [],
        none, ⟨2, 12⟩⟩], ⟨0, 14⟩⟩, ⟨0, 14⟩⟩], ⟨0, 14⟩⟩ := by decide +kernel
  obtain ⟨-, ts, htokens, hall⟩ := Source.span_tree hparse
  have hholds : ∀ (f : FieldSelection) (x y z : Span), (Node.document ⟨[.operation ⟨.query, none, [],
      [], ⟨[.field f], x⟩, y⟩], z⟩).Holds (.selection (.field f)) := fun f x y z =>
    .head (b := .definition (.operation ⟨.query, none, [], [], ⟨[.field f], x⟩, y⟩)) List.mem_cons_self
      (.head (b := .selectionSet ⟨[.field f], x⟩) List.mem_cons_self (.single List.mem_cons_self))
  obtain ⟨hnested, hd | haligned⟩ := hall _ (hholds _ _ _ _)
  · cases hd
  · exact ⟨_, ts, _, hparse, htokens, hholds _ _ _ _, rfl, hnested, haligned⟩

end SpanTree

end QueryDocs
