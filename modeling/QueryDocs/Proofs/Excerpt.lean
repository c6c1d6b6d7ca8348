import QueryDocs.Proofs.Grammar.DefinitionRuns
import QueryDocs.Proofs.TokenOrder
import QueryDocs.Proofs.Tokens.Listing

/-! # Definitions on their own

The span of a definition covers its text and nothing else: read alone, this text is the definition
again, with all its offsets moved by the start of the span (`Source.parse_excerpt`). -/

namespace QueryDocs

open QueryDocs.Text
open Rule (Run definition)

/-! ### The start of a text -/

/-- Reading a text starts at a place with the tokens of the text ahead. -/
structure Source.Opens (s : Source) (ts : List Token) (c : Cursor) : Prop where
  tokens : Tokenizes 0 s.chars ts (.endOfText s.size)
  before : c.Before (.prepend ts (.finish (.endOfText s.size)))
  lastStop : c.lastStop = 0

section Opens
variable {s : Source} {ts : List Token} {c e : Cursor} {d : Document} {xs : List Definition}

theorem Source.stream_proper (h : Tokenizes 0 s.chars ts (.endOfText s.size)) :
    (TokenStream.prepend ts (.finish (.endOfText s.size))).Proper := by
  rw [← h.ofSource]
  exact TokenStream.proper_ofSource _

theorem Source.Opens.within (h : s.Opens ts c) : c.Within (ts.length + 1) := by
  have hw := h.before.within (Source.stream_proper h.tokens)
  rwa [TokenStream.length_prepend] at hw

theorem Source.Opens.passes (h : s.Opens ts c) :
    ∃ e, c.Passes ts e ∧ e.current = .endOfText s.size := by
  obtain ⟨e, hp, he⟩ := h.before.passes (Source.stream_proper h.tokens) fun e h => by cases h
  cases he
  exact ⟨_, hp, rfl⟩

theorem Source.exists_opens (h : Tokenizes 0 s.chars ts (.endOfText s.size)) :
    ∃ c, s.Opens ts c ∧ Rule.advance ⟨.startOfText, TokenStream.ofSource s, 0⟩ = .ok ((), c) := by
  have hproper := Source.stream_proper h
  obtain ⟨c, hc⟩ := Cursor.exists_advance
    (TokenStream.prepend_finish_ne_broken ts (.endOfText s.size)) .startOfText 0
  obtain ⟨hbefore, hlast⟩ := Cursor.before_of_advance hproper hc
  exact ⟨c, ⟨h, hbefore, hlast⟩, by rw [h.ofSource]; exact hc⟩

theorem Source.Opens.stop (h : s.Opens ts c) {us : List Token} (hp : c.Passes us e)
    (he : e.current.isEnd = true) : us = ts ∧ e.current = .endOfText s.size := by
  obtain ⟨s', hs, hbefore⟩ := hp.before (Source.stream_proper h.tokens) h.before
  obtain ⟨vs, rfl, rfl⟩ := prepend_eq_prepend hs.symm
  cases vs with
  | nil =>
    cases hbefore
    exact ⟨(List.append_nil us).symm, rfl⟩
  | cons v vs =>
    cases hbefore with
    | token hv => rw [he] at hv; cases hv

theorem Source.run_of_parse (h : s.parse = .ok d) :
    d.span = ⟨0, s.size⟩ ∧ ∃ ts c e, s.Opens ts c ∧ Run (ts.length + 1) c d.definitions e := by
  have hproper : (TokenStream.ofSource s).Proper := TokenStream.proper_ofSource _
  have hparse := Source.stream_of_parse h
  obtain ⟨c, e, hc, hr⟩ := TokenStream.exists_of_parse_ok hparse
  obtain ⟨hbefore, hlast⟩ := Cursor.before_of_advance hproper hc
  have hwithin := hbefore.within hproper
  have hrun := Rule.run_of_definitions le_rfl hwithin hr
  obtain ⟨ts, hp, -⟩ := hrun.append hwithin
  obtain ⟨s', hs, he⟩ := hp.before hproper hbefore
  have hend := hrun.isEnd
  cases he with
  | token hnot => rw [hend] at hnot; cases hnot
  | @finish last n hlast' =>
    -- the text is read up to its end
    obtain ⟨rfl, htokens⟩ := Source.tokenizes_of_stream hs
    have hlength : (TokenStream.ofSource s).length = ts.length := by
      rw [hs, TokenStream.length_prepend]
      rfl
    have hspan : d.span = ⟨0, s.size⟩ := by
      have hdocument := TokenStream.parse_ok hc hr
      rw [hparse] at hdocument
      exact congrArg Document.span (Except.ok.inj hdocument)
    rw [hlength] at hrun
    exact ⟨hspan, ts, c, _, ⟨htokens, by rwa [← hs], hlast⟩, hrun⟩

theorem Source.parse_of_run (h : Tokenizes 0 s.chars ts (.endOfText s.size))
    (hrun : ∀ c, s.Opens ts c → ∃ e, Run (ts.length + 1) c xs e) :
    s.parse = .ok ⟨xs, ⟨0, s.size⟩⟩ := by
  obtain ⟨c, hc, hadvance⟩ := Source.exists_opens h
  obtain ⟨e, he⟩ := hrun c hc
  obtain ⟨us, hp, -⟩ := he.append hc.within
  obtain ⟨-, hstop⟩ := hc.stop hp he.isEnd
  have hlength : (TokenStream.ofSource s).length = ts.length := by
    rw [h.ofSource, TokenStream.length_prepend]
    rfl
  have hdefinitions := he.definitions le_rfl hc.within
  rw [← hlength] at hdefinitions
  have hparse := TokenStream.parse_ok hadvance hdefinitions
  rw [hstop] at hparse
  exact Source.parse_of_stream hparse

end Opens

/-! ### The text of a definition -/

theorem Token.move_sub_add {t : Token} {k : Nat} (h : k ≤ t.span.start) (h' : k ≤ t.span.stop) :
    (t.move (· - k)).move (· + k) = t := by
  obtain ⟨kind, value, start, stop⟩ := t
  have hstart : start - k + k = start := Nat.sub_add_cancel h
  have hstop : stop - k + k = stop := Nat.sub_add_cancel h'
  change Token.mk kind value ⟨start - k + k, stop - k + k⟩ = _
  rw [hstart, hstop]

section Excerpt
variable {s : Source} {d : Document} {x : Definition}

/-- The text of a definition as a part of a text: its tokens are `t :: us`, its span covers them and
nothing else, and it is read from them in front of the end of any text. -/
structure Source.Cuts (s : Source) (x : Definition) (text : String) (t : Token) (us : List Token)
    (limit : Nat) : Prop where
  slice : s.slice? x.span = some text
  span : x.span = ⟨t.span.start, t.span.start + byteLength text.toList⟩
  tokens : Tokenizes 0 text.toList ((t :: us).map (Token.move (· - t.span.start)))
    (.endOfText (byteLength text.toList))
  token : ∀ u ∈ t :: us, u.lexeme.Valid ∧ t.span.start ≤ u.span.start ∧ u.span.start < u.span.stop
  bound : (t :: us).length < limit
  read : ∀ c e : Cursor, c.Within limit → c.lastStop = t.span.start → c.Passes (t :: us) e →
    e.current.isEnd = true → definition limit c = .ok (x, e)

/-- **A definition is read from tokens of its own**, which its span covers, and it is read from them in
front of the end of a text as well. -/
theorem Source.exists_cuts (h : s.parse = .ok d) (hx : x ∈ d.definitions) :
    ∃ text t us limit, s.Cuts x text t us limit := by
  obtain ⟨-, ts, c, e, hopen, hrun⟩ := Source.run_of_parse h
  obtain ⟨before, behind, c₁, d₁, ys, hp, hread, hps, hys⟩ := hrun.of_mem hopen.within hx
  have hc₁ := hopen.within.passes hp
  obtain ⟨us, hne, hpass, -⟩ := Rule.passes_of_definition hc₁ hread
  obtain ⟨t, us, rfl⟩ := List.exists_cons_of_ne_nil hne
  -- the tokens of the text are those before the definition, its own and those behind it
  obtain ⟨hall, -⟩ := hopen.stop (hp.append (hpass.append hps)) hrun.isEnd
  subst hall
  obtain ⟨offset, rest, hscans, -, -⟩ := hopen.tokens
  obtain ⟨n, cs, hbefore, hscans⟩ := hscans.split
  obtain ⟨m, cs', hown, -⟩ := hscans.split
  have hfrom := hbefore.textFrom s.textFrom_zero
  obtain ⟨gap, u, rfl, hstart, hstop, hexcerpt⟩ := hown.excerpt
  have hcurrent : c₁.current = t := hpass.current
  have hspan : x.span = ⟨t.span.start, t.span.start + byteLength u⟩ := by
    have hlast : d₁.lastStop = t.span.start + byteLength u := by
      rw [hpass.lastStop, ← hstop, List.getLast?_eq_some_getLast (List.cons_ne_nil t us)]
      exact hown.stop _ (List.getLast?_eq_some_getLast (List.cons_ne_nil t us))
    rw [(Rule.ends_definition hread).1, hcurrent, hlast, Nat.max_eq_left (by omega)]
  have htext : (String.ofList u).toList = u := String.toList_ofList
  refine ⟨String.ofList u, t, us, (before ++ (t :: us ++ behind)).length + 1, ?_,
    by rw [hspan, htext], by rwa [htext], fun v hv => ⟨hown.valid v hv, hown.start_le v hv⟩, ?_,
    fun c' e' hc' hlast hpass' hend => ?_⟩
  · rw [List.append_assoc] at hfrom
    have hslice := hfrom.append.slice
    rwa [← hstart, ← hspan] at hslice
  · simp
    omega
  · -- neither the end of the token before nor the token behind matters
    have hfresh : definition _ ⟨c₁.current, c₁.rest, t.span.start⟩ = .ok (x, d₁) :=
      (Rule.fresh_definition _ _ _ c₁.lastStop).trans hread
    have hwithin : Cursor.Within _ ⟨c₁.current, c₁.rest, t.span.start⟩ :=
      ⟨hc₁.proper, hc₁.valid, hc₁.bound⟩
    obtain ⟨vs, hvs, hsame⟩ := Rule.firm_definition.indifferent hwithin x d₁ hfresh
    obtain rfl := hvs.unique (hpass.fresh _) hwithin
    have hd₁ : Rule.Behind x.lacksBody d₁.current := ⟨hys.outside, (Rule.ends_definition hread).2⟩
    have he' : Rule.Behind x.lacksBody e'.current := by
      refine ⟨Rule.outside_of_isEnd hend, fun _ hk => ?_⟩
      rw [Token.isEnd_iff] at hend
      rw [hend] at hk
      cases hk
    exact hsame c' e' ⟨hc', hlast, hpass', Or.inr ⟨hd₁, he'⟩⟩

theorem Cursor.exists_before_end {ts : List Token} (hts : ∀ t ∈ ts, t.lexeme.Valid) (m n : Nat) :
    ∃ c e : Cursor, c.Within (ts.length + 1) ∧ c.lastStop = m ∧ c.Passes ts e ∧
      e.current = .endOfText n := by
  have hproper : (TokenStream.prepend ts (.finish (.endOfText n))).Proper :=
    TokenStream.proper_prepend.mpr ⟨hts, rfl⟩
  obtain ⟨c, hc⟩ := Cursor.exists_advance
    (TokenStream.prepend_finish_ne_broken ts (.endOfText n)) (.endOfText m) 0
  obtain ⟨hbefore, hlast⟩ := Cursor.before_of_advance hproper hc
  obtain ⟨e, hp, he⟩ := hbefore.passes hproper fun e h => by cases h
  have hwithin := hbefore.within hproper
  rw [TokenStream.length_prepend] at hwithin
  cases he
  exact ⟨c, _, hwithin, hlast, hp, rfl⟩

section Cuts
variable {text : String} {t : Token} {us : List Token} {limit : Nat} {c e : Cursor}

theorem Source.Cuts.exists_read (h : s.Cuts x text t us limit) :
    ∃ c e : Cursor, c.Within limit ∧ c.lastStop = t.span.start ∧ c.Passes (t :: us) e ∧
      e.current = .endOfText (t.span.start + byteLength text.toList) ∧
      definition limit c = .ok (x, e) := by
  obtain ⟨c, e, hc, hlast, hp, he⟩ := Cursor.exists_before_end (fun u hu => (h.token u hu).1)
    t.span.start (t.span.start + byteLength text.toList)
  have hc := hc.mono (show (t :: us).length + 1 ≤ limit from h.bound)
  exact ⟨c, e, hc, hlast, hp, he, h.read c e hc hlast hp (by rw [he]; rfl)⟩

theorem Source.Cuts.read_alone (h : s.Cuts x text t us limit) {name : Option String}
    (hopen : Source.Opens ⟨text, name⟩ ((t :: us).map (Token.move (· - t.span.start))) c) :
    ∃ e, c.Passes ((t :: us).map (Token.move (· - t.span.start))) e ∧
      e.current = .endOfText (byteLength text.toList) ∧
      definition ((t :: us).length + 1) c = .ok (relabel (.move (· - t.span.start)) x, e) := by
  obtain ⟨c', e', hc', hlast, hp', he', hread⟩ := h.exists_read
  obtain ⟨e, hp, he⟩ := hopen.passes
  have hwithin := hopen.within
  rw [List.length_map] at hwithin
  have hcurrent : e.current = e'.current.move (· - t.span.start) := by
    rw [he, he']
    change Token.endOfText (byteLength text.toList) = ⟨_, _, ⟨_ - _, _ - _⟩⟩
    simp [Token.endOfText, Span.empty]
  have htracks := Cursor.tracks_of_passes hwithin hp' hp
    (by rw [hopen.lastStop, hlast, Nat.sub_self]) hcurrent
  exact ⟨e, hp, he, Rule.definition_move (fun m n hmn => Nat.sub_le_sub_right hmn _) hc' hread hp'
    htracks⟩

theorem Source.Cuts.map_move (h : s.Cuts x text t us limit) :
    ((t :: us).map (Token.move (· - t.span.start))).map (Token.move (· + t.span.start)) =
      t :: us := by
  rw [List.map_map]
  conv_rhs => rw [← List.map_id (t :: us)]
  refine List.map_congr_left fun u hu => ?_
  obtain ⟨-, hle, hlt⟩ := h.token u hu
  exact Token.move_sub_add hle (by omega)

theorem Source.Cuts.parse_alone (h : s.Cuts x text t us limit) (name : Option String) :
    Source.parse ⟨text, name⟩ =
      .ok ⟨[relabel (.move (· - t.span.start)) x], ⟨0, byteLength text.toList⟩⟩ := by
  refine Source.parse_of_run (s := ⟨text, name⟩) h.tokens fun c hopen => ?_
  obtain ⟨e, hp, he, hread⟩ := h.read_alone hopen
  have hnot : c.current.isEnd = false := by
    rw [hp.current]
    exact Token.isEnd_eq_false_of_valid (h.token t List.mem_cons_self).1
  rw [List.length_map]
  exact ⟨e, .cons hnot hread (.nil (by rw [he]; rfl))⟩

theorem Source.Cuts.move_back (h : s.Cuts x text t us limit) :
    relabel (.move (· + t.span.start)) (relabel (.move (· - t.span.start)) x) = x := by
  obtain ⟨c, e, hc, hlast, hp, he, hread⟩ := h.exists_read
  obtain ⟨c', hopen, -⟩ := Source.exists_opens (s := ⟨text, none⟩) h.tokens
  obtain ⟨e', hp', he', halone⟩ := h.read_alone hopen
  have hcurrent : e.current = e'.current.move (· + t.span.start) := by
    rw [he', he, Nat.add_comm]
    rfl
  have htracks := Cursor.tracks_of_passes hc hp' (h.map_move.symm ▸ hp)
    (by rw [hopen.lastStop, hlast, Nat.zero_add]) hcurrent
  have hwithin := hopen.within
  rw [List.length_map] at hwithin
  have hback := Rule.definition_move (fun m n hmn => Nat.add_le_add_right hmn _) hwithin halone hp'
    htracks
  rw [hread] at hback
  exact (Prod.mk.inj (Except.ok.inj hback)).1.symm

end Cuts

/-- **The text of a definition, read alone, is the definition.** Its offsets are moved by the start of
its span, before which none of them lies. -/
theorem Source.parse_excerpt (h : s.parse = .ok d) (hx : x ∈ d.definitions) :
    ∃ text, s.slice? x.span = some text ∧
      (∀ name, Source.parse ⟨text, name⟩ =
        .ok ⟨[relabel (.move (· - x.span.start)) x], ⟨0, x.span.length⟩⟩) ∧
      relabel (.move (· + x.span.start)) (relabel (.move (· - x.span.start)) x) = x := by
  obtain ⟨text, t, us, limit, hcuts⟩ := Source.exists_cuts h hx
  have hstart : x.span.start = t.span.start := by rw [hcuts.span]
  have hlength : x.span.length = byteLength text.toList := by
    rw [hcuts.span]
    simp [Span.length]
  rw [hstart, hlength]
  exact ⟨text, hcuts.slice, hcuts.parse_alone, hcuts.move_back⟩

/-- The second of two types is read alone, without the interface before it. -/
theorem Source.parse_excerpt_second : ∃ d x text,
    Source.parse ⟨"type A implements B type C @d", none⟩ = .ok d ∧ x ∈ d.definitions ∧
      Source.slice? ⟨"type A implements B type C @d", none⟩ ⟨20, 29⟩ = some text ∧
      Source.parse ⟨text, none⟩ = .ok ⟨[.type (.object ⟨none, ⟨"C", ⟨5, 6⟩⟩, [],
        [⟨⟨"d", ⟨8, 9⟩⟩, [], ⟨7, 9⟩⟩], [], ⟨0, 9⟩⟩)], ⟨0, 9⟩⟩ := by
  have hparse : Source.parse ⟨"type A implements B type C @d", none⟩ =
      .ok ⟨[.type (.object ⟨none, ⟨"A", ⟨5, 6⟩⟩, [⟨⟨"B", ⟨18, 19⟩⟩, ⟨18, 19⟩⟩], [], [], ⟨0, 19⟩⟩),
        .type (.object ⟨none, ⟨"C", ⟨25, 26⟩⟩, [], [⟨⟨"d", ⟨28, 29⟩⟩, [], ⟨27, 29⟩⟩], [], ⟨20, 29⟩⟩)],
        ⟨0, 29⟩⟩ := by decide +kernel
  obtain ⟨text, htext, hread, -⟩ := Source.parse_excerpt hparse
    (List.mem_cons_of_mem _ List.mem_cons_self)
  exact ⟨_, _, text, hparse, List.mem_cons_of_mem _ List.mem_cons_self, htext, hread none⟩

end Excerpt

end QueryDocs
