import QueryDocs.Proofs.Grammar.ReadsDocument
import QueryDocs.Proofs.Grammar.TakesDocument

/-! # Whole texts

Reading starts at the first token of a text and goes on until the end. What is read from all tokens
of a text is therefore what its tokens are the tokens of (`parse_of_written`). -/

namespace QueryDocs

/-! ### Places in a stream -/

/-- A cursor stands before the tokens of a stream, or at its end. -/
inductive Cursor.Before : Cursor → TokenStream → Prop where
  | token {t : Token} {rest : TokenStream} {n : Nat} (he : t.isEnd = false) :
    Before ⟨t, rest, n⟩ (.token t rest)
  | finish {last : Token} {n : Nat} (he : last.isEnd = true) :
    Before ⟨last, .finish last, n⟩ (.finish last)

namespace Cursor

variable {c d : Cursor} {s s' : TokenStream} {t : Token} {n : Nat} {ts : List Token}

theorem before_of_advance (hs : s.Proper) (h : Rule.advance ⟨t, s, n⟩ = .ok ((), d)) :
    d.Before s ∧ d.lastStop = t.span.stop := by
  cases s with
  | finish last => cases h; exact ⟨.finish hs, rfl⟩
  | broken e => cases h
  | token u rest => cases h; exact ⟨.token (Token.isEnd_eq_false_of_valid hs.1), rfl⟩

theorem exists_advance (hs : ∀ e, s ≠ .broken e) (t : Token) (n : Nat) :
    ∃ d, Rule.advance ⟨t, s, n⟩ = .ok ((), d) := by
  cases s with
  | finish last => exact ⟨_, rfl⟩
  | broken e => exact absurd rfl (hs e)
  | token u rest => exact ⟨_, rfl⟩

theorem Before.within (h : c.Before s) (hs : s.Proper) : c.Within (s.length + 1) := by
  cases h with
  | token he =>
    exact ⟨hs.2, fun _ => hs.1, by simp [remaining, he, TokenStream.length]⟩
  | finish he =>
    refine ⟨hs, fun h => ?_, by simp [remaining, he, TokenStream.length]⟩
    rw [show _ = true from he] at h
    cases h

theorem Passes.before (h : c.Passes ts d) (hs : s.Proper) (hc : c.Before s) :
    ∃ s', s = .prepend ts s' ∧ d.Before s' := by
  induction h generalizing s with
  | nil => exact ⟨s, rfl, hc⟩
  | cons he h _ ih =>
    cases hc with
    | token _ =>
      obtain ⟨s', rfl, hd⟩ := ih hs.2 (before_of_advance hs.2 h).1
      exact ⟨s', rfl, hd⟩
    | finish hlast =>
      rw [show _ = true from hlast] at he
      cases he

/-- A cursor can pass the tokens of its stream up to where the stream breaks off. -/
theorem Before.passes (hc : c.Before (.prepend ts s')) (hs : (TokenStream.prepend ts s').Proper)
    (hs' : ∀ e, s' ≠ .broken e) : ∃ d, c.Passes ts d ∧ d.Before s' := by
  induction ts generalizing c with
  | nil => exact ⟨c, .nil c, hc⟩
  | cons t ts ih =>
    rw [TokenStream.prepend_cons] at hc hs
    cases hc with
    | token he =>
      obtain ⟨c', hc'⟩ := exists_advance (TokenStream.prepend_ne_broken hs' ts) t _
      obtain ⟨d, hd, hb⟩ := ih (before_of_advance hs.2 hc').1 hs.2
      exact ⟨d, .cons he hc' hd, hb⟩

end Cursor

/-! ### Definitions up to the end -/

namespace Rule

/-- Definitions up to the end of a text. -/
abbrev definitions (limit : Nat) : Rule (List Definition) :=
  repeatWhile (fun t => !t.isEnd) (definition limit) limit

/-- A definition was read from tokens: they are the ones it is written with, and it spans them. -/
structure Covers (x : Definition) (ts : List Token) : Prop where
  shaped : x.Shaped
  written : ∃ full, ts.map Token.lexeme = x.lexemes full
  span : ∃ t ∈ ts.head?, ∃ u ∈ ts.getLast?, x.span = ⟨t.span.start, max u.span.stop t.span.start⟩

theorem covers_of_definition {l : Nat} {c d : Cursor} {x : Definition} (hc : c.Within l)
    (h : definition l c = .ok (x, d)) : ∃ ts, ts ≠ [] ∧ c.Passes ts d ∧ Covers x ts := by
  have hreads : Reads id l (definition l) (definition l) c (DefinitionRead c.current) :=
    reads_definition monotone_id hc
  obtain ⟨ts, hp, ⟨full, hfull, hx, -⟩, -⟩ := hreads.ok h
  have hne : ts ≠ [] := by
    rintro rfl
    exact x.lexemes_ne_nil full hfull.symm
  refine ⟨ts, hne, hp, hx, ⟨full, hfull⟩, ts.head hne, List.head?_eq_some_head hne, ts.getLast hne,
    List.getLast?_eq_some_getLast hne, ?_⟩
  have hcurrent : c.current = ts.head hne := by
    rw [hp.current, List.head?_eq_some_head hne, Option.getD_some]
  have hstop : d.lastStop = (ts.getLast hne).span.stop := by
    rw [hp.lastStop, List.getLast?_eq_some_getLast hne]
    rfl
  rw [(ends_definition h).1, hcurrent, hstop]

/-- **Reading goes on to the end of a text**, and each definition is read from tokens of its own. -/
theorem definitions_ok {l : Nat} : ∀ {n : Nat} {c d : Cursor} {xs : List Definition}, n ≤ l →
    c.Within n → repeatWhile (fun t => !t.isEnd) (definition l) n c = .ok (xs, d) →
    d.current.isEnd = true ∧ ∃ segments : List (Definition × List Token),
      segments.map Prod.fst = xs ∧ c.Passes (segments.flatMap Prod.snd) d ∧
        ∀ p ∈ segments, Covers p.1 p.2 := by
  intro n
  induction n with
  | zero => intro c _ _ _ hc; exact absurd hc.bound (Nat.not_lt_zero _)
  | succ n ih =>
    intro c d xs hn hc h
    rw [repeatWhile] at h
    obtain ⟨b, _, hb, h⟩ := bind_eq_ok h
    cases hb
    cases he : c.current.isEnd with
    | true =>
      simp only [he, Bool.not_true, Bool.false_eq_true, if_false] at h
      cases h
      exact ⟨he, [], rfl, .nil c, by simp⟩
    | false =>
      simp only [he, Bool.not_false, if_true] at h
      obtain ⟨x, c', hx, h⟩ := bind_eq_ok h
      obtain ⟨xs, _, hxs, h⟩ := bind_eq_ok h
      cases h
      obtain ⟨ts, hne, hp, hcovers⟩ := covers_of_definition (hc.mono hn) hx
      obtain ⟨hend, segments, rfl, hps, hall⟩ := ih (by omega) (hc.pred hp hne) hxs
      exact ⟨hend, (x, ts) :: segments, rfl, hp.append hps,
        List.forall_mem_cons.mpr ⟨hcovers, hall⟩⟩

end Rule

/-! ### Reading a stream -/

namespace TokenStream

open Rule (definitions)

variable {s : TokenStream} {c d : Cursor} {xs : List Definition}

theorem parse_ok (h : Rule.advance ⟨.startOfText, s, 0⟩ = .ok ((), c))
    (hc : definitions (s.length + 1) c = .ok (xs, d)) :
    s.parse = .ok ⟨xs, ⟨0, d.current.span.stop⟩⟩ := by
  have hdocument : Rule.document (s.length + 1) ⟨.startOfText, s, 0⟩ =
      .ok (⟨xs, ⟨0, d.current.span.stop⟩⟩, d) := by
    rw [Rule.document, Rule.bind_ok h, Rule.bind_ok hc]
    rfl
  change Prod.fst <$> Rule.document (s.length + 1) ⟨.startOfText, s, 0⟩ = _
  rw [hdocument]
  rfl

theorem parse_error {e : ParseFault} (h : Rule.advance ⟨.startOfText, s, 0⟩ = .ok ((), c))
    (hc : definitions (s.length + 1) c = .error e) : s.parse = .error e := by
  have hdocument : Rule.document (s.length + 1) ⟨.startOfText, s, 0⟩ = .error e := by
    rw [Rule.document, Rule.bind_ok h, Rule.bind_error hc]
  change Prod.fst <$> Rule.document (s.length + 1) ⟨.startOfText, s, 0⟩ = _
  rw [hdocument]
  rfl

/-- A stream is read from its first token on, unless it breaks off there. -/
theorem parse_cases (s : TokenStream) :
    (∃ e, s = .broken e) ∨ ∃ c, Rule.advance ⟨.startOfText, s, 0⟩ = .ok ((), c) := by
  by_cases hs : ∃ e, s = .broken e
  · exact Or.inl hs
  · exact Or.inr (Cursor.exists_advance (fun e h => hs ⟨e, h⟩) _ _)

theorem exists_of_parse_ok {D : Document} (h : s.parse = .ok D) :
    ∃ c d, Rule.advance ⟨.startOfText, s, 0⟩ = .ok ((), c) ∧
      definitions (s.length + 1) c = .ok (D.definitions, d) := by
  rcases parse_cases s with ⟨e, rfl⟩ | ⟨c, hc⟩
  · cases h
  · cases hr : definitions (s.length + 1) c with
    | error e => rw [parse_error hc hr] at h; cases h
    | ok p =>
      rw [parse_ok hc hr] at h
      cases h
      exact ⟨c, p.2, hc, hr⟩

theorem exists_of_parse_unexpected {e : Expectation} {t : Token}
    (h : s.parse = .error (.unexpected e t)) :
    ∃ c, Rule.advance ⟨.startOfText, s, 0⟩ = .ok ((), c) ∧
      definitions (s.length + 1) c = .error (.unexpected e t) := by
  rcases parse_cases s with ⟨e, rfl⟩ | ⟨c, hc⟩
  · cases h
  · cases hr : definitions (s.length + 1) c with
    | ok p => rw [parse_ok hc hr] at h; cases h
    | error e =>
      rw [parse_error hc hr] at h
      cases h
      exact ⟨c, hc, hr⟩

end TokenStream

/-! ### Reading without offsets -/

section Plain

open Rule (definitions)

variable {m : Relabeling} {ts : List Token} {ls : List Lexeme} {s : TokenStream} {n : Nat}
  {D : Document} {e : ParseFault}

/-- Tokens are those of a list, with the labels changed. -/
def PlainOf (m : Relabeling) (ls : List Lexeme) (ts : List Token) : Prop :=
  ts.map Token.lexeme = ls.map (relabel m)

theorem plain_passes (h : PlainOf m ls ts) (hv : ∀ t ∈ ts, t.lexeme.Valid) :
    (Cursor.plain m ls).Passes (ts.map (Token.move fun _ => 0)) (.plain m []) := by
  induction ls generalizing ts with
  | nil =>
    obtain rfl : ts = [] := by simpa [PlainOf] using h
    exact .nil _
  | cons l ls ih =>
    obtain ⟨t, ts, rfl⟩ : ∃ t us, ts = t :: us := by
      cases ts with
      | nil => cases h
      | cons t ts => exact ⟨t, ts, rfl⟩
    obtain ⟨ht, hts⟩ := List.cons.inj h
    obtain ⟨hvt, hvts⟩ := List.forall_mem_cons.mp hv
    have hcurrent : (Cursor.plain m (l :: ls)).current = t.move fun _ => 0 := by
      change (relabel m l).token = _
      rw [← ht]
      rfl
    rw [List.map_cons, ← hcurrent]
    refine .cons ?_ (Rule.advance_plain m l ls) (ih hts hvts)
    rw [hcurrent]
    exact Token.isEnd_eq_false_of_valid hvt

theorem plain_before (hv : ∀ l ∈ ls, (relabel m l).Valid) :
    (Cursor.plain m ls).Before (.plain m ls) ∧ (TokenStream.plain m ls).Proper ∧
      (TokenStream.plain m ls).length = ls.length := by
  induction ls with
  | nil => exact ⟨.finish rfl, rfl, rfl⟩
  | cons l ls ih =>
    obtain ⟨hl, hls⟩ := List.forall_mem_cons.mp hv
    obtain ⟨-, hp, hlen⟩ := ih hls
    exact ⟨.token (Token.isEnd_eq_false_of_valid hl), ⟨hl, hp⟩, by
      simp [TokenStream.plain, TokenStream.length, hlen]⟩

theorem plain_within (hv : ∀ l ∈ ls, (relabel m l).Valid) :
    (Cursor.plain m ls).Within (ls.length + 1) := by
  obtain ⟨hbefore, hproper, hlen⟩ := plain_before hv
  rw [← hlen]
  exact hbefore.within hproper

theorem prepend_eq_prepend {us : List Token} {s' : TokenStream} {last : Token}
    (h : TokenStream.prepend us s' = .prepend ts (.finish last)) :
    ∃ vs, ts = us ++ vs ∧ s' = .prepend vs (.finish last) := by
  induction us generalizing ts with
  | nil => exact ⟨ts, rfl, h⟩
  | cons u us ih =>
    cases ts with
    | nil => cases h
    | cons t ts =>
      injection h with h1 h2
      obtain ⟨vs, rfl, hs'⟩ := ih h2
      exact ⟨vs, by rw [h1]; rfl, hs'⟩

/-- From the first token on, every place in a stream has its like among the tokens without offsets. -/
theorem tracks_plain {c d : Cursor} {us : List Token} (hp : (TokenStream.prepend ts (.finish (.endOfText n))).Proper)
    (hc : c.Before (.prepend ts (.finish (.endOfText n)))) (h : PlainOf m ls ts) (hus : c.Passes us d) :
    ∃ d', c.Tracks (fun _ => 0) (ls.length + 1) us d (.plain m ls) d' ∧
      (d.current.isEnd = true → d' = .plain m []) := by
  have hv := (TokenStream.proper_prepend.mp hp).1
  have hwithin := plain_within fun l hl => by
    obtain ⟨t, ht, htl⟩ := List.mem_map.mp (h ▸ List.mem_map_of_mem hl : relabel m l ∈ _)
    exact htl ▸ hv t ht
  obtain ⟨s', hs', hd⟩ := hus.before hp hc
  obtain ⟨vs, rfl, rfl⟩ := prepend_eq_prepend hs'.symm
  have hpv : (TokenStream.prepend vs (.finish (.endOfText n))).Proper :=
    TokenStream.proper_prepend.mpr ⟨fun t ht => hv t (List.mem_append_right us ht), rfl⟩
  obtain ⟨e, he, hend⟩ := hd.passes hpv (fun e h => by cases h)
  have hplain := plain_passes h hv
  rw [List.map_append] at hplain
  obtain ⟨d', hd', he'⟩ := hplain.split
  have hstop : Cursor.Moved (fun _ => 0) e (.plain m []) := by
    cases hend
    exact ⟨rfl, rfl⟩
  have hstart : Cursor.Moved (fun _ => 0) c (.plain m ls) := by
    constructor
    · rw [(hd'.append he').current, (hus.append he).current, hstop.1]
      cases us <;> cases vs <;> rfl
    · cases ls <;> rfl
  refine ⟨d', ⟨hwithin, hstart, hd', hstart.between hstop hus he hd' he'⟩, fun hcurrent => ?_⟩
  cases vs with
  | nil =>
    cases he'
    rfl
  | cons v vs =>
    cases hd with
    | token hv =>
      rw [hcurrent] at hv
      cases hv

/-- **Reading does not depend on the offsets.** -/
theorem definitions_plain (hs : s = .prepend ts (.finish (.endOfText n))) (hp : s.Proper)
    (h : PlainOf m ls ts) :
    (∀ D, s.parse = .ok D → definitions (ls.length + 1) (.plain m ls) =
      .ok (relabel .erase D.definitions, .plain m [])) ∧
    ∀ e, s.parse = .error e → ∃ f, definitions (ls.length + 1) (.plain m ls) = .error f := by
  have hne : ∀ e, s ≠ .broken e := hs ▸ TokenStream.prepend_finish_ne_broken ts _
  obtain ⟨c, hc⟩ := Cursor.exists_advance hne .startOfText 0
  obtain ⟨hbefore, -⟩ := Cursor.before_of_advance hp hc
  have hwithin := hbefore.within hp
  have hreads : Rule.Reads (fun _ => 0) (ls.length + 1) (definitions (s.length + 1))
      (definitions (ls.length + 1)) c _ := Rule.reads_definitions (fun _ _ _ => le_rfl) hwithin
  cases hr : definitions (s.length + 1) c with
  | ok p =>
    obtain ⟨xs, d⟩ := p
    rw [TokenStream.parse_ok hc hr]
    refine ⟨fun D hD => ?_, fun e he => by cases he⟩
    cases hD
    obtain ⟨ts', hus, -, hsame⟩ := hreads.ok hr
    obtain ⟨hend, -⟩ := Rule.definitions_ok le_rfl hwithin hr
    subst hs
    obtain ⟨d', htracks, hd'⟩ := tracks_plain hp hbefore h hus
    rw [← hd' hend]
    exact hsame _ _ htracks
  | error f =>
    rw [TokenStream.parse_error hc hr]
    refine ⟨(fun D hD => by cases hD), fun e _ => ?_⟩
    subst hs
    cases f with
    | unexpected x t =>
      obtain ⟨ts', d, hus, -, -, hsame⟩ := hreads.unexpected hr
      obtain ⟨d', htracks, -⟩ := tracks_plain hp hbefore h hus
      exact ⟨_, hsame _ _ htracks⟩
    | lexical x =>
      -- the stream does not break off
      obtain ⟨ts', d, hus, hbroken⟩ := hreads.lexical hr
      obtain ⟨s', hs', hd⟩ := hus.before hp hbefore
      obtain ⟨vs, -, rfl⟩ := prepend_eq_prepend hs'.symm
      cases vs with
      | nil =>
        cases hd
        cases hbroken
      | cons v vs =>
        cases hd
        cases vs <;> cases hbroken

/-- **A text whose tokens are those of definitions that stand apart is read as these definitions.** -/
theorem parse_of_written {block : String → Bool} {ws : List Written}
    (hs : s = .prepend ts (.finish (.endOfText n))) (hp : s.Proper)
    (h : PlainOf (.plain block) (ws.flatMap Written.lexemes) ts) (hws : ∀ w ∈ ws, w.1.Shaped)
    (hapart : Apart ws) :
    ∃ D, s.parse = .ok D ∧
      relabel .erase D.definitions = relabel (.plain block) (ws.map Prod.fst) := by
  have htakes : Rule.Takes block _ (definitions _) _ _ [] := Rule.takes_definitions hws hapart
    (le_refl ((ws.flatMap Written.lexemes).length + 1))
  have hrun := htakes (by simp)
  rw [List.append_nil] at hrun
  obtain ⟨hok, herror⟩ := definitions_plain hs hp h
  cases hparse : s.parse with
  | error e =>
    obtain ⟨f, hf⟩ := herror e hparse
    cases hf.symm.trans hrun
  | ok D =>
    have hpair := Except.ok.inj ((hok D hparse).symm.trans hrun)
    exact ⟨D, rfl, (Prod.mk.inj hpair).1⟩

end Plain

end QueryDocs
