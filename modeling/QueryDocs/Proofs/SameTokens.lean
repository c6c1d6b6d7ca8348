import QueryDocs.Proofs.OnDemand

/-! # Texts with the same tokens

What a text is read as depends on its tokens alone, and not on where they stand or what stands between
them: two texts whose tokens are of the same kinds and values are the same document up to the spans, or
fail at the same token for the same reason (`Source.parse_congr_lexemes`). -/

namespace QueryDocs

open QueryDocs.Text

/-! ### Streams -/

namespace TokenStream

variable {φ φ' : Nat → Nat} {ts ts' us : List Token} {n n' : Nat} {s s' : TokenStream}
  {c c' d : Cursor}

theorem exists_tracks (hs : s = prepend ts (.finish (.endOfText n))) (hp : s.Proper)
    (hs' : s' = prepend (ts.map (Token.move φ)) (.finish (.endOfText (φ n)))) (hp' : s'.Proper)
    (hc : c.Before s) (hc' : c'.Before s') (hlast : c'.lastStop = φ c.lastStop)
    (hus : c.Passes us d) : ∃ d', c.Tracks φ (s'.length + 1) us d c' d' := by
  have hwithin := hc'.within hp'
  subst hs hs'
  obtain ⟨s, hs, hd⟩ := hus.before hp hc
  obtain ⟨vs, rfl, rfl⟩ := prepend_eq_prepend hs.symm
  have hbefore := hc'
  rw [List.map_append, prepend_append] at hbefore hp'
  obtain ⟨d', hus', hd'⟩ := hbefore.passes hp' (prepend_finish_ne_broken _ _)
  -- the token behind is the moved one in both streams, be it the end or not
  have hhead : (prepend (vs.map (Token.move φ)) (.finish (.endOfText (φ n)))).head? =
      (prepend vs (.finish (.endOfText n))).head?.map (Token.move φ) := by
    cases vs <;> rfl
  rw [hd.head?, hd'.head?] at hhead
  exact ⟨d', Cursor.tracks_of_passes hwithin hus hus' hlast (Option.some.inj hhead)⟩

/-- **Moving the offsets of the tokens moves those of the document**, or of the token that cannot stand
at its place. -/
theorem parse_move (hφ : Monotone φ) (hzero : φ 0 = 0)
    (hs : s = prepend ts (.finish (.endOfText n))) (hp : s.Proper)
    (hs' : s' = prepend (ts.map (Token.move φ)) (.finish (.endOfText (φ n)))) :
    (∃ d, s.parse = .ok d ∧ s'.parse = .ok (relabel (.move φ) d)) ∨
      ∃ x t, s.parse = .error (.unexpected x t) ∧ s'.parse = .error (.unexpected x (t.move φ)) := by
  have hp' : s'.Proper := by
    rw [hs, proper_prepend] at hp
    rw [hs', proper_prepend]
    exact ⟨by simpa using hp.1, rfl⟩
  obtain ⟨c, hc⟩ := Cursor.exists_advance (hs ▸ prepend_finish_ne_broken ts _) .startOfText 0
  obtain ⟨c', hc'⟩ := Cursor.exists_advance (hs' ▸ prepend_finish_ne_broken _ _) .startOfText 0
  obtain ⟨hbefore, hlast⟩ := Cursor.before_of_advance hp hc
  obtain ⟨hbefore', hlast'⟩ := Cursor.before_of_advance hp' hc'
  have htracks : ∀ {us : List Token} {d : Cursor}, c.Passes us d →
      ∃ d', c.Tracks φ (s'.length + 1) us d c' d' := fun hus =>
    exists_tracks hs hp hs' hp' hbefore hbefore' (by rw [hlast, hlast']; exact hzero.symm) hus
  have hreads : Rule.Reads φ (s'.length + 1) (Rule.definitions (s.length + 1))
      (Rule.definitions (s'.length + 1)) c _ := Rule.reads_definitions hφ (hbefore.within hp)
  cases hr : Rule.definitions (s.length + 1) c with
  | ok p =>
    obtain ⟨xs, d⟩ := p
    obtain ⟨us, hus, -, hsame⟩ := hreads.ok hr
    obtain ⟨d', hd'⟩ := htracks hus
    refine Or.inl ⟨_, parse_ok hc hr, ?_⟩
    have hspan : relabel (.move φ) (⟨0, d.current.span.stop⟩ : Span) =
        ⟨0, d'.current.span.stop⟩ := by
      rw [hd'.stop.1]
      exact congrArg (Span.mk · _) hzero
    rw [parse_ok hc' (hsame c' d' hd'), ← hspan]
    rfl
  | error f =>
    cases f with
    | unexpected x t =>
      obtain ⟨us, d, hus, -, -, hsame⟩ := hreads.unexpected hr
      obtain ⟨d', hd'⟩ := htracks hus
      exact Or.inr ⟨x, t, parse_error hc hr, parse_error hc' (hsame c' d' hd')⟩
    | lexical e =>
      have hlist := toList_of_parse_lexical hp (parse_error hc hr)
      rw [hs, toList_prepend_finish] at hlist
      cases hlist

theorem parse_alike (hφ : Monotone φ) (hzero : φ 0 = 0) (hφ' : Monotone φ') (hzero' : φ' 0 = 0)
    (hs : s = prepend ts (.finish (.endOfText n))) (hp : s.Proper)
    (hs' : s' = prepend ts' (.finish (.endOfText n'))) (hp' : s'.Proper)
    (hts : ts.map (Token.move φ) = ts'.map (Token.move φ')) (hn : φ n = φ' n') :
    (∃ d d', s.parse = .ok d ∧ s'.parse = .ok d' ∧
      relabel (.move φ) d = relabel (.move φ') d') ∨
    ∃ x t t', s.parse = .error (.unexpected x t) ∧ s'.parse = .error (.unexpected x t') ∧
      t.move φ = t'.move φ' := by
  rcases parse_move hφ hzero hs hp rfl with ⟨d, hd, hmoved⟩ | ⟨x, t, ht, hmoved⟩ <;>
    rcases parse_move hφ' hzero' hs' hp' rfl with ⟨d', hd', hmoved'⟩ | ⟨x', t', ht', hmoved'⟩ <;>
    rw [hts, hn, hmoved'] at hmoved
  · exact Or.inl ⟨d, d', hd, hd', (Except.ok.inj hmoved).symm⟩
  · cases hmoved
  · cases hmoved
  · injection hmoved with h
    injection h with hx hmove
    subst hx
    exact Or.inr ⟨x', t, t', ht, ht', hmove.symm⟩

end TokenStream

/-! ### Tokens by their number -/

/-- The number of the tokens that end up to an offset. -/
def countUpTo (ts : List Token) (n : Nat) : Nat := ts.countP fun t => t.span.stop ≤ n

/-- Tokens that cover the numbers of their places. -/
def numbered (k : Nat) : List Lexeme → List Token
  | [] => []
  | l :: ls => ⟨l.1, l.2, ⟨k, k + 1⟩⟩ :: numbered (k + 1) ls

section Count
variable {ts us vs : List Token} {n : Nat} {t : Token}

theorem monotone_countUpTo (ts : List Token) : Monotone (countUpTo ts) := fun m n hmn =>
  List.countP_mono_left fun t _ h => by
    simp only [decide_eq_true_eq] at h ⊢
    exact h.trans hmn

theorem countUpTo_append (hus : ∀ t ∈ us, t.span.stop ≤ n) (hvs : ∀ t ∈ vs, n < t.span.stop) :
    countUpTo (us ++ vs) n = us.length := by
  have hall : us.countP (fun t => t.span.stop ≤ n) = us.length :=
    List.countP_eq_length.mpr fun t ht => by simpa using hus t ht
  have hnone : vs.countP (fun t => t.span.stop ≤ n) = 0 :=
    List.countP_eq_zero.mpr fun t ht => by simpa using hvs t ht
  rw [countUpTo, List.countP_append, hall, hnone, Nat.add_zero]

theorem span_move_countUpTo (h : Ordered (us ++ t :: vs)) :
    (t.move (countUpTo (us ++ t :: vs))).span = ⟨us.length, us.length + 1⟩ := by
  obtain ⟨-, hbehind, hbefore⟩ := h.of_append
  have ht := hbehind.pos t List.mem_cons_self
  have hus : ∀ u ∈ us, u.span.stop ≤ t.span.start := fun u hu => hbefore u hu t List.mem_cons_self
  have hvs : ∀ v ∈ vs, t.span.stop < v.span.stop := fun v hv =>
    ((List.pairwise_cons.mp hbehind.pairwise).1 v hv).trans_lt
      (hbehind.pos v (List.mem_cons_of_mem t hv))
  have hstart : countUpTo (us ++ t :: vs) t.span.start = us.length :=
    countUpTo_append hus (List.forall_mem_cons.mpr ⟨ht, fun v hv => ht.trans (hvs v hv)⟩)
  have hstop : countUpTo (us ++ t :: vs) t.span.stop = us.length + 1 := by
    have hus' : ∀ u ∈ us ++ [t], u.span.stop ≤ t.span.stop :=
      List.forall_mem_append.mpr ⟨fun u hu => (hus u hu).trans ht.le, by simp⟩
    rw [List.append_cons, countUpTo_append hus' hvs, List.length_append]
    rfl
  change (⟨countUpTo _ t.span.start, countUpTo _ t.span.stop⟩ : Span) = _
  rw [hstart, hstop]

theorem countUpTo_zero (h : Ordered ts) : countUpTo ts 0 = 0 :=
  @countUpTo_append [] ts 0 (by simp) fun t ht => (Nat.zero_le _).trans_lt (h.pos t ht)

theorem countUpTo_of_le (hn : ∀ t ∈ ts, t.span.stop ≤ n) : countUpTo ts n = ts.length := by
  have hall : countUpTo (ts ++ []) n = ts.length := countUpTo_append hn (by simp)
  rwa [List.append_nil] at hall

theorem map_move_countUpTo (h : Ordered (us ++ vs)) :
    vs.map (Token.move (countUpTo (us ++ vs))) = numbered us.length (vs.map Token.lexeme) := by
  induction vs generalizing us with
  | nil => rfl
  | cons t vs ih =>
    have hspan := span_move_countUpTo h
    rw [List.append_cons] at h hspan
    have htail := ih h
    rw [List.length_append] at htail
    rw [List.map_cons, List.append_cons, htail, List.map_cons, numbered, ← hspan]
    rfl

theorem exists_getElem?_of_mem (h : Ordered ts) (hn : ∀ t ∈ ts, t.span.stop ≤ n)
    (ht : t ∈ ts ∨ t = .endOfText n) :
    ∃ i, (ts ++ [.endOfText n])[i]? = some t ∧ (t.move (countUpTo ts)).span.start = i := by
  rcases ht with ht | rfl
  · obtain ⟨us, vs, rfl⟩ := List.append_of_mem ht
    refine ⟨us.length, by simp, ?_⟩
    rw [span_move_countUpTo h]
  · exact ⟨ts.length, by simp, countUpTo_of_le hn⟩

end Count

/-! ### Texts -/

section Texts
variable {s s' : Source} {ts ts' us us' : List Token} {t t' : Token} {x x' : Expectation}

theorem Tokenizes.mem_of_parse (h : Tokenizes 0 s.chars us (.endOfText s.size))
    (ht : (TokenStream.ofSource s).parse = .error (.unexpected x t)) :
    t ∈ us ∨ t = .endOfText s.size := by
  have hholds := TokenStream.holds_of_parse (TokenStream.proper_ofSource s) ht
  rw [h.ofSource, TokenStream.holds_prepend] at hholds
  exact hholds

theorem Tokenizes.parse_erased (h : Tokenizes 0 s.chars us (.endOfText s.size))
    (h' : Tokenizes 0 s'.chars us' (.endOfText s'.size))
    (hsame : us.map Token.lexeme = us'.map Token.lexeme) :
    (∃ d d', (TokenStream.ofSource s).parse = .ok d ∧ (TokenStream.ofSource s').parse = .ok d' ∧
      relabel .erase d = relabel .erase d') ∨
    ∃ x t t', (TokenStream.ofSource s).parse = .error (.unexpected x t) ∧
      (TokenStream.ofSource s').parse = .error (.unexpected x t') ∧
      t.move (fun _ => 0) = t'.move fun _ => 0 := by
  have hplain : ∀ vs : List Token, vs.map (Token.move fun _ => 0) =
      (vs.map Token.lexeme).map fun l => ⟨l.1, l.2, ⟨0, 0⟩⟩ := fun vs => by
    rw [List.map_map]
    rfl
  have herased : us.map (Token.move fun _ => 0) = us'.map (Token.move fun _ => 0) := by
    rw [hplain, hplain, hsame]
  exact TokenStream.parse_alike monotone_const rfl monotone_const rfl h.ofSource
    (TokenStream.proper_ofSource _) h'.ofSource (TokenStream.proper_ofSource _) herased rfl

theorem Tokenizes.index_of_parse (h : Tokenizes 0 s.chars us (.endOfText s.size))
    (h' : Tokenizes 0 s'.chars us' (.endOfText s'.size))
    (hsame : us.map Token.lexeme = us'.map Token.lexeme)
    (ht : (TokenStream.ofSource s).parse = .error (.unexpected x t))
    (ht' : (TokenStream.ofSource s').parse = .error (.unexpected x' t')) :
    ∃ i : Nat, (us ++ [.endOfText s.size])[i]? = some t ∧
      (us' ++ [.endOfText s'.size])[i]? = some t' := by
  obtain ⟨hordered, hbound⟩ := h.ordered
  obtain ⟨hordered', hbound'⟩ := h'.ordered
  obtain ⟨i, hi, hstart⟩ := exists_getElem?_of_mem hordered hbound (h.mem_of_parse ht)
  obtain ⟨j, hj, hstart'⟩ := exists_getElem?_of_mem hordered' hbound' (h'.mem_of_parse ht')
  -- with numbers in the place of offsets both texts are the same stream
  have hnumbered : us.map (Token.move (countUpTo us)) = us'.map (Token.move (countUpTo us')) := by
    have hnumbers := @map_move_countUpTo [] us hordered
    have hnumbers' := @map_move_countUpTo [] us' hordered'
    rw [← hsame] at hnumbers'
    exact hnumbers.trans hnumbers'.symm
  have hlength : countUpTo us s.size = countUpTo us' s'.size := by
    rw [countUpTo_of_le hbound, countUpTo_of_le hbound']
    simpa using congrArg List.length hsame
  rcases TokenStream.parse_alike (monotone_countUpTo us) (countUpTo_zero hordered)
    (monotone_countUpTo us') (countUpTo_zero hordered') h.ofSource
    (TokenStream.proper_ofSource _) h'.ofSource (TokenStream.proper_ofSource _) hnumbered
    hlength with ⟨d, d', hd, -⟩ | ⟨y, u, u', hu, hu', hmove⟩
  · cases ht.symm.trans hd
  · cases ht.symm.trans hu
    cases ht'.symm.trans hu'
    have hij : i = j := by rw [← hstart, ← hstart', hmove]
    exact ⟨i, hi, hij ▸ hj⟩

/-- **Reading depends on the tokens alone.** Two texts with tokens of the same kinds and values are the
same document up to the spans, or they fail at tokens of the same index, with the same texts for what is
expected and for what is found. -/
theorem Source.parse_congr_lexemes (h : s.tokens = .ok ts) (h' : s'.tokens = .ok ts')
    (hsame : ts.map Token.lexeme = ts'.map Token.lexeme) :
    (∃ d d', s.parse = .ok d ∧ s'.parse = .ok d' ∧ relabel .erase d = relabel .erase d') ∨
      ∃ (x : Expectation) (i : Nat) (t t' : Token), ts[i]? = some t ∧ ts'[i]? = some t' ∧
        t.describe = t'.describe ∧
        s.parse = .error ⟨.unexpected x t, s.locate t.span.start⟩ ∧
        s'.parse = .error ⟨.unexpected x t', s'.locate t'.span.start⟩ := by
  obtain ⟨us, rfl, htokens⟩ := Source.tokens_eq_ok h
  obtain ⟨us', rfl, htokens'⟩ := Source.tokens_eq_ok h'
  have hlexemes : us.map Token.lexeme = us'.map Token.lexeme := by
    rw [List.map_append, List.map_append] at hsame
    exact List.append_cancel_right hsame
  rcases htokens.parse_erased htokens' hlexemes with
    ⟨d, d', hd, hd', herased⟩ | ⟨x, t, t', ht, ht', herased⟩
  · exact Or.inl ⟨d, d', Source.parse_of_stream hd, Source.parse_of_stream hd', herased⟩
  · obtain ⟨i, hi, hi'⟩ := htokens.index_of_parse htokens' hlexemes ht ht'
    have hdescribe : (t.move fun _ => 0).describe = (t'.move fun _ => 0).describe := by
      rw [herased]
    refine Or.inr ⟨x, i, t, t', hi, hi', hdescribe, ?_, ?_⟩
    · rw [Source.parse, ht]
      rfl
    · rw [Source.parse, ht']
      rfl

/-- A number is no type, whatever stands between the tokens before it. -/
theorem Source.parse_congr_lexemes_field :
    ∃ t, t.describe = "Int \"1\"" ∧ Source.parse ⟨"type A\x7ba # b\n: 1\x7d", none⟩ =
      .error ⟨.unexpected (.kind .name) t, Source.locate ⟨"type A\x7ba # b\n: 1\x7d", none⟩
        t.span.start⟩ := by
  have htokens : Source.tokens ⟨"type A \x7b a: 1 \x7d", none⟩ =
      .ok [⟨.name, some "type", ⟨0, 4⟩⟩, ⟨.name, some "A", ⟨5, 6⟩⟩, ⟨.leftBrace, none, ⟨7, 8⟩⟩,
        ⟨.name, some "a", ⟨9, 10⟩⟩, ⟨.colon, none, ⟨10, 11⟩⟩, ⟨.int, some "1", ⟨12, 13⟩⟩,
        ⟨.rightBrace, none, ⟨14, 15⟩⟩, .endOfText 15] := by decide +kernel
  have htokens' : Source.tokens ⟨"type A\x7ba # b\n: 1\x7d", none⟩ =
      .ok [⟨.name, some "type", ⟨0, 4⟩⟩, ⟨.name, some "A", ⟨5, 6⟩⟩, ⟨.leftBrace, none, ⟨6, 7⟩⟩,
        ⟨.name, some "a", ⟨7, 8⟩⟩, ⟨.colon, none, ⟨13, 14⟩⟩, ⟨.int, some "1", ⟨15, 16⟩⟩,
        ⟨.rightBrace, none, ⟨16, 17⟩⟩, .endOfText 17] := by decide +kernel
  have hparse : Source.parse ⟨"type A \x7b a: 1 \x7d", none⟩ =
      .error ⟨.unexpected (.kind .name) ⟨.int, some "1", ⟨12, 13⟩⟩, ⟨1, 13⟩⟩ := by decide +kernel
  rcases Source.parse_congr_lexemes htokens htokens' rfl with
    ⟨d, d', hd, -⟩ | ⟨x, i, t, t', -, -, hdescribe, ht, ht'⟩
  · cases hparse.symm.trans hd
  · cases hparse.symm.trans ht
    exact ⟨t', hdescribe.symm, ht'⟩

end Texts

end QueryDocs
