import Mathlib.Order.MinMax
import QueryDocs.Proofs.Document.Lexemes
import QueryDocs.Proofs.Grammar.Passes

/-! # What a rule reads

`Reads` says three things about a run of a rule. If it succeeds, the tokens it has taken are the ones
that its result is written with. If it fails at a token, the tokens before that one are the start of
something the rule could have read. And it has looked at no token behind the last one it took but the
one after it: on another stream with the same tokens up to there, also at other offsets, it does the
same. The lemmas below follow the steps of a rule. -/

namespace QueryDocs

/-- Whether a token is a mark or a name with its spelling: one that is written on its own. -/
def Lexeme.isPlain : Lexeme → Bool
  | (.name, some w) =>
    match w.toList with
    | c :: cs => NameText.isStart c && cs.all NameText.isPart
    | [] => false
  | (k, none) => k.isMark
  | _ => false

/-- Something can be read from tokens together with plain tokens behind them. -/
def Completable {α : Type} (N : α → List Lexeme → Prop) (ls : List Lexeme) : Prop :=
  ∃ w x, w.all Lexeme.isPlain = true ∧ N x (ls ++ w)

theorem Completable.map {α β : Type} {N : α → List Lexeme → Prop} {M : β → List Lexeme → Prop}
    {ls : List Lexeme} (f : α → β) (h : Completable N ls) (hf : ∀ x ls, N x ls → M (f x) ls) :
    Completable M ls := by
  obtain ⟨w, x, hw, hn⟩ := h
  exact ⟨w, f x, hw, hf _ _ hn⟩

/-- A node is written with the tokens that a function tells, and satisfies a condition. -/
def Spelled {α : Type} (g : α → List Lexeme) (P : α → Prop) (x : α) (ls : List Lexeme) : Prop :=
  ls = g x ∧ P x

/-- A second run passes the same tokens as a first one up to the offsets, from a place like that of
the first one to a place like that of the first one. -/
structure Cursor.Tracks (φ : Nat → Nat) (limit : Nat) (c : Cursor) (ts : List Token)
    (d c' d' : Cursor) : Prop where
  within : c'.Within limit
  start : Moved φ c c'
  passes : c'.Passes (ts.map (Token.move φ)) d'
  stop : Moved φ d d'

namespace Rule

/-- **What a rule reads from a place, and that another rule reads the same from every place like it.** -/
structure Reads {α : Type} [Labeled α] (φ : Nat → Nat) (limit : Nat) (r r' : Rule α) (c : Cursor)
    (N : α → List Lexeme → Prop) : Prop where
  ok : ∀ {x d}, r c = .ok (x, d) → ∃ ts, c.Passes ts d ∧ N x (ts.map Token.lexeme) ∧
    ∀ c' d', c.Tracks φ limit ts d c' d' → r' c' = .ok (relabel (.move φ) x, d')
  unexpected : ∀ {e t}, r c = .error (.unexpected e t) → ∃ ts d, c.Passes ts d ∧ d.current = t ∧
    Completable N (ts.map Token.lexeme) ∧
    ∀ c' d', c.Tracks φ limit ts d c' d' → r' c' = .error (.unexpected e (t.move φ))
  lexical : ∀ {e}, r c = .error (.lexical e) → ∃ ts d, c.Passes ts d ∧ d.rest = .broken e

theorem bind_ok {α β : Type} {r : Rule α} {k : α → Rule β} {c d : Cursor} {x : α}
    (h : r c = .ok (x, d)) : (r >>= k) c = k x d := by
  change (r c >>= fun p => k p.1 p.2) = _
  rw [h]
  rfl

theorem bind_error {α β : Type} {r : Rule α} {k : α → Rule β} {c : Cursor} {e : ParseFault}
    (h : r c = .error e) : (r >>= k) c = .error e := by
  change (r c >>= fun p => k p.1 p.2) = _
  rw [h]
  rfl

theorem accept_bind {β : Type} {k : Token.Kind} (K : Bool → Rule β) :
    (accept k >>= K) = (atToken (·.kind == k) >>= fun b =>
      if b = true then advance >>= fun _ => K true else K false) := by
  simp only [accept, atKind, bind_assoc]
  congr
  funext b
  cases b <;> simp

section Steps
variable {α β : Type} [Labeled α] [Labeled β] {φ : Nat → Nat} {l limit limit' : Nat}
  {c : Cursor} {r r' : Rule α} {k k' : α → Rule β} {N : α → List Lexeme → Prop}
  {M : β → List Lexeme → Prop}

theorem Reads.mono (h : Reads φ limit r r' c N) (hl : limit' ≤ limit) : Reads φ limit' r r' c N where
  ok hr := by
    obtain ⟨ts, hp, hn, hk⟩ := h.ok hr
    exact ⟨ts, hp, hn, fun c' d' ht => hk c' d' { ht with within := ht.within.mono hl }⟩
  unexpected hr := by
    obtain ⟨ts, d, hp, hd, hn, hk⟩ := h.unexpected hr
    exact ⟨ts, d, hp, hd, hn, fun c' d' ht => hk c' d' { ht with within := ht.within.mono hl }⟩
  lexical hr := h.lexical hr

theorem Reads.imp {N' : α → List Lexeme → Prop} (h : Reads φ limit r r' c N)
    (hi : ∀ x ls, N x ls → N' x ls) : Reads φ limit r r' c N' where
  ok hr := by
    obtain ⟨ts, hp, hn, hsame⟩ := h.ok hr
    exact ⟨ts, hp, hi _ _ hn, hsame⟩
  unexpected hr := by
    obtain ⟨ts, d, hp, hd, hn, hsame⟩ := h.unexpected hr
    exact ⟨ts, d, hp, hd, hn.map id hi, hsame⟩
  lexical hr := h.lexical hr

/-- Within no bound there is nothing to say about a second run. -/
theorem Reads.zero {r'' : Rule α} (h : Reads φ limit r r' c N) : Reads φ 0 r r'' c N where
  ok hr := by
    obtain ⟨ts, hp, hn, -⟩ := h.ok hr
    exact ⟨ts, hp, hn, fun c' d' ht => absurd ht.within.bound (Nat.not_lt_zero _)⟩
  unexpected hr := by
    obtain ⟨ts, d, hp, hd, hn, -⟩ := h.unexpected hr
    exact ⟨ts, d, hp, hd, hn, fun c' d' ht => absurd ht.within.bound (Nat.not_lt_zero _)⟩
  lexical hr := h.lexical hr

theorem Reads.pure {x x' : α} (h : N x []) (hx : relabel (.move φ) x = x') :
    Reads φ limit (pure x) (pure x') c N where
  ok hr := by
    cases hr
    refine ⟨[], .nil c, h, fun c' d' ht => ?_⟩
    cases ht.passes
    rw [hx]
    rfl
  unexpected hr := by cases hr
  lexical hr := by cases hr

theorem Reads.fail {e : Expectation} (h : Completable N []) :
    Reads φ limit (fail e) (fail e) c N where
  ok hr := by cases hr
  unexpected hr := by
    cases hr
    refine ⟨[], c, .nil c, rfl, h, fun c' d' ht => ?_⟩
    rw [← ht.start.1]
    rfl
  lexical hr := by cases hr

/-- One rule after the other: a second run of the first rule within `limit` leaves the second rule
within `limit'`. -/
theorem Reads.bind_within (h : Reads φ limit r r' c N)
    (hl : ∀ (x : α) (ts : List Token) (c' d' : Cursor), N x (ts.map Token.lexeme) →
      c'.Within limit → c'.Passes (ts.map (Token.move φ)) d' → d'.Within limit')
    (hk : ∀ x d ts, r c = .ok (x, d) → c.Passes ts d → N x (ts.map Token.lexeme) →
      Reads φ limit' (k x) (k' (relabel (.move φ) x)) d fun y ls => M y (ts.map Token.lexeme ++ ls))
    (hs : ∀ e t, r c = .error (.unexpected e t) → ∀ x ls, N x ls → Completable M ls) :
    Reads φ limit (r >>= k) (r' >>= k') c M where
  ok {y e} hr := by
    cases h1 : r c with
    | error f => rw [bind_error h1] at hr; cases hr
    | ok p =>
      obtain ⟨x, d⟩ := p
      rw [bind_ok h1] at hr
      obtain ⟨ts, hp, hn, hsame⟩ := h.ok h1
      obtain ⟨us, hp', hm, hsame'⟩ := (hk x d ts h1 hp hn).ok hr
      refine ⟨ts ++ us, hp.append hp', by rwa [List.map_append], fun c' e' ht => ?_⟩
      obtain ⟨d', hd, he⟩ := (List.map_append ▸ ht.passes : c'.Passes (_ ++ _) e').split
      have hmid := ht.start.between ht.stop hp hp' hd he
      rw [bind_ok (hsame c' d' ⟨ht.within, ht.start, hd, hmid⟩)]
      exact hsame' d' e' ⟨hl x ts c' d' hn ht.within hd, hmid, he, ht.stop⟩
  unexpected {e t} hr := by
    cases h1 : r c with
    | error f =>
      rw [bind_error h1] at hr
      cases hr
      obtain ⟨ts, d, hp, hd, ⟨w, x, hw, hn⟩, hsame⟩ := h.unexpected h1
      obtain ⟨w', y, hw', hm⟩ := hs e t h1 x _ hn
      refine ⟨ts, d, hp, hd, ⟨w ++ w', y, by simp [hw, hw'], by rwa [← List.append_assoc]⟩,
        fun c' d' ht => ?_⟩
      exact bind_error (hsame c' d' ht)
    | ok p =>
      obtain ⟨x, d⟩ := p
      rw [bind_ok h1] at hr
      obtain ⟨ts, hp, hn, hsame⟩ := h.ok h1
      obtain ⟨us, e', hp', he', ⟨w, y, hw, hm⟩, hsame'⟩ := (hk x d ts h1 hp hn).unexpected hr
      refine ⟨ts ++ us, e', hp.append hp', he', ⟨w, y, hw, by rwa [List.map_append, List.append_assoc]⟩,
        fun c' f' ht => ?_⟩
      obtain ⟨d', hd, he⟩ := (List.map_append ▸ ht.passes : c'.Passes (_ ++ _) f').split
      have hmid := ht.start.between ht.stop hp hp' hd he
      rw [bind_ok (hsame c' d' ⟨ht.within, ht.start, hd, hmid⟩)]
      exact hsame' d' f' ⟨hl x ts c' d' hn ht.within hd, hmid, he, ht.stop⟩
  lexical {e} hr := by
    cases h1 : r c with
    | error f =>
      rw [bind_error h1] at hr
      cases hr
      exact h.lexical h1
    | ok p =>
      obtain ⟨x, d⟩ := p
      rw [bind_ok h1] at hr
      obtain ⟨ts, hp, hn, -⟩ := h.ok h1
      obtain ⟨us, e', hp', he'⟩ := (hk x d ts h1 hp hn).lexical hr
      exact ⟨ts ++ us, e', hp.append hp', he'⟩

/-- One rule after the other, where the tokens of the first one depend on its result alone. -/
theorem Reads.bind {g : α → List Lexeme} {P : α → Prop} (hc : c.Within l)
    (h : Reads φ limit r r' c (Spelled g P))
    (hk : ∀ x d, P x → d.Within l →
      Reads φ limit (k x) (k' (relabel (.move φ) x)) d fun y ls => M y (g x ++ ls))
    (hs : ∀ x, P x → Completable M (g x)) : Reads φ limit (r >>= k) (r' >>= k') c M := by
  refine h.bind_within (fun _ _ _ _ _ hw hp => hw.passes hp) (fun x d ts _ hp hn => ?_)
    fun _ _ _ x ls hn => ?_
  · obtain ⟨hg, hx⟩ := hn
    rw [hg]
    exact hk x d hx (hc.passes hp)
  · obtain ⟨rfl, hx⟩ := hn
    exact hs x hx

/-- The same where the first rule takes a token, so that less is left for the second one. -/
theorem Reads.bind_succ {g : α → List Lexeme} {P : α → Prop} (hc : c.Within (l + 1))
    (h : Reads φ (limit + 1) r r' c (Spelled g P)) (hne : ∀ x, P x → g x ≠ [])
    (hk : ∀ x d, P x → d.Within l →
      Reads φ limit (k x) (k' (relabel (.move φ) x)) d fun y ls => M y (g x ++ ls))
    (hs : ∀ x, P x → Completable M (g x)) : Reads φ (limit + 1) (r >>= k) (r' >>= k') c M := by
  have hts : ∀ {x : α} {ts : List Token}, Spelled g P x (ts.map Token.lexeme) → ts ≠ [] := by
    rintro x _ ⟨hg, hx⟩ rfl
    exact hne x hx hg.symm
  refine h.bind_within (fun _ _ _ _ hn hw hp => hw.pred hp (by simpa using hts hn))
    (fun x d ts _ hp hn => ?_) fun _ _ _ x ls hn => ?_
  · have hd := hc.pred hp (hts hn)
    obtain ⟨hg, hx⟩ := hn
    rw [hg]
    exact hk x d hx hd
  · obtain ⟨rfl, hx⟩ := hn
    exact hs x hx

/-- What a rule reads as a part of something else. -/
theorem Reads.map {f f' : α → β} (h : Reads φ limit r r' c N) (hm : ∀ x ls, N x ls → M (f x) ls)
    (hf : ∀ x, relabel (.move φ) (f x) = f' (relabel (.move φ) x)) :
    Reads φ limit (r >>= fun x => Pure.pure (f x)) (r' >>= fun x => Pure.pure (f' x)) c M := by
  refine h.bind_within (fun _ _ _ _ _ hw hp => hw.passes hp)
    (fun x _ ts _ _ hn => .pure ?_ (hf x)) fun _ _ _ x ls hn => ⟨[], f x, rfl, ?_⟩
  · simpa using hm x _ hn
  · simpa using hm x _ hn

/-! ### Looking at the current token -/

theorem Reads.current {f g : Token → Rule β}
    (h : Reads φ limit (f c.current) (g (c.current.move φ)) c M) :
    Reads φ limit (get >>= fun c => f c.current) (get >>= fun c => g c.current) c M where
  ok hr := by
    obtain ⟨ts, hp, hm, hsame⟩ := h.ok hr
    refine ⟨ts, hp, hm, fun c' d' ht => ?_⟩
    have := hsame c' d' ht
    rwa [← ht.start.1] at this
  unexpected hr := by
    obtain ⟨ts, d, hp, hd, hm, hsame⟩ := h.unexpected hr
    refine ⟨ts, d, hp, hd, hm, fun c' d' ht => ?_⟩
    have := hsame c' d' ht
    rwa [← ht.start.1] at this
  lexical hr := h.lexical hr

/-- The same for a rule that is given the whole place, and looks at the current token alone. -/
theorem Reads.get {f f' : Cursor → Rule β} {r₁ : Rule β}
    (hf : ∀ c' : Cursor, c'.current = c.current.move φ → f' c' = r₁)
    (h : Reads φ limit (f c) r₁ c M) : Reads φ limit (get >>= f) (get >>= f') c M where
  ok hr := by
    obtain ⟨ts, hp, hm, hsame⟩ := h.ok hr
    refine ⟨ts, hp, hm, fun c' d' ht => ?_⟩
    rw [← hsame c' d' ht, ← hf c' ht.start.1]
    rfl
  unexpected hr := by
    obtain ⟨ts, d, hp, hd, hm, hsame⟩ := h.unexpected hr
    refine ⟨ts, d, hp, hd, hm, fun c' d' ht => ?_⟩
    rw [← hsame c' d' ht, ← hf c' ht.start.1]
    rfl
  lexical hr := h.lexical hr

theorem Reads.atToken {p : Token → Bool} {K K' : Bool → Rule β}
    (hp : ∀ t : Token, p (t.move φ) = p t)
    (h : Reads φ limit (K (p c.current)) (K' (p c.current)) c M) :
    Reads φ limit (atToken p >>= K) (atToken p >>= K') c M :=
  Reads.current (f := fun t => K (p t)) (g := fun t => K' (p t)) (by rwa [hp])

theorem Reads.ite {b : Bool} {a a' e e' : Rule β} (ht : b = true → Reads φ limit a a' c M)
    (hf : b = false → Reads φ limit e e' c M) :
    Reads φ limit (if b = true then a else e) (if b = true then a' else e') c M := by
  cases b with
  | true => exact ht rfl
  | false => exact hf rfl

theorem Reads.ifToken {p : Token → Bool} {a a' b b' : Rule β}
    (hp : ∀ t : Token, p (t.move φ) = p t) (ht : p c.current = true → Reads φ limit a a' c M)
    (hf : p c.current = false → Reads φ limit b b' c M) :
    Reads φ limit (Rule.atToken p >>= fun x => if x = true then a else b)
      (Rule.atToken p >>= fun x => if x = true then a' else b') c M := by
  exact Reads.atToken hp (Reads.ite ht hf)

theorem Reads.start {K K' : Nat → Rule β}
    (h : Reads φ limit (K c.current.span.start) (K' (φ c.current.span.start)) c M) :
    Reads φ limit (start >>= K) (start >>= K') c M :=
  Reads.current (f := fun t => K t.span.start) (g := fun t => K' t.span.start) h

theorem Reads.spanFrom (hφ : Monotone φ) {start : Nat} {K K' : Span → Rule β}
    (h : ∀ s, Reads φ limit (K s) (K' (relabel (.move φ) s)) c M) :
    Reads φ limit (spanFrom start >>= K) (Rule.spanFrom (φ start) >>= K') c M := by
  have hspan : ∀ c' : Cursor, c.Moved φ c' → (Rule.spanFrom (φ start) >>= K') c' =
      K' (relabel (.move φ) (⟨start, max c.lastStop start⟩ : Span)) c' := by
    intro c' hc'
    have hstop : max c'.lastStop (φ start) = φ (max c.lastStop start) := by
      rw [hc'.2, hφ.map_max]
    change K' ⟨φ start, max c'.lastStop (φ start)⟩ c' = _
    rw [hstop]
    rfl
  constructor
  · intro x d hr
    obtain ⟨ts, hp, hm, hsame⟩ := (h _).ok hr
    exact ⟨ts, hp, hm, fun c' d' ht => (hspan c' ht.start).trans (hsame c' d' ht)⟩
  · intro e t hr
    obtain ⟨ts, d, hp, hd, hm, hsame⟩ := (h _).unexpected hr
    exact ⟨ts, d, hp, hd, hm, fun c' d' ht => (hspan c' ht.start).trans (hsame c' d' ht)⟩
  · intro e hr
    exact (h _).lexical hr

/-! ### Taking the current token -/

theorem advance_error {e : ParseFault} (h : Rule.advance c = .error e) :
    ∃ f, e = .lexical f ∧ c.rest = .broken f := by
  obtain ⟨current, rest, lastStop⟩ := c
  cases rest with
  | finish last => cases h
  | broken f => cases h; exact ⟨f, rfl, rfl⟩
  | token t rest => cases h

theorem reads_advance (he : c.current.isEnd = false) :
    Reads φ limit advance advance c fun _ ls => ls = [c.current.lexeme] where
  ok {x d} hr := by
    refine ⟨[c.current], .cons he hr (.nil d), rfl, fun c' d' ht => ?_⟩
    obtain ⟨-, -, hp, -⟩ := ht
    generalize ht : [c.current].map (Token.move φ) = ts at hp
    cases hp with
    | nil => cases ht
    | cons _ h hs =>
      obtain ⟨-, rfl⟩ := List.cons.inj ht
      cases hs
      exact h
  unexpected hr := by
    obtain ⟨f, hf, -⟩ := advance_error hr
    cases hf
  lexical hr := by
    obtain ⟨f, hf, hrest⟩ := advance_error hr
    cases hf
    exact ⟨[], c, .nil c, hrest⟩

/-- Taking a token brings a second run within a smaller bound. -/
theorem Reads.advance_succ {K K' : Unit → Rule β} (hc : c.Within l) (he : c.current.isEnd = false)
    (h : ∀ d, c.Passes [c.current] d → d.Within l →
      Reads φ limit (K ()) (K' ()) d fun y ls => M y (c.current.lexeme :: ls)) :
    Reads φ (limit + 1) (advance >>= K) (advance >>= K') c M := by
  refine (reads_advance he).bind_within (fun _ ts _ _ hn hw hp => hw.pred hp ?_)
    (fun _ d ts _ hp hn => ?_) fun e t hr => ?_
  · rintro h
    rw [List.map_eq_nil_iff.mp h] at hn
    cases hn
  · obtain ⟨t, rfl⟩ : ∃ t, ts = [t] := by
      cases ts with
      | nil => cases hn
      | cons t ts => exact ⟨t, by simpa using (List.cons.inj hn).2⟩
    have ht : c.current = t := hp.current
    subst ht
    exact h d hp (hc.passes hp)
  · obtain ⟨f, hf, -⟩ := advance_error hr
    cases hf

theorem Reads.advance {K K' : Unit → Rule β} (hc : c.Within l) (he : c.current.isEnd = false)
    (h : ∀ d, c.Passes [c.current] d → d.Within l →
      Reads φ limit (K ()) (K' ()) d fun y ls => M y (c.current.lexeme :: ls)) :
    Reads φ limit (advance >>= K) (advance >>= K') c M :=
  (Reads.advance_succ hc he h).mono (Nat.le_succ limit)

theorem lexeme_eq_mark {t : Token} {k : Token.Kind} (ht : t.lexeme.Valid) (hk : k.isMark = true)
    (h : t.kind = k) : t.lexeme = Lexeme.mark k := by
  obtain ⟨kind, value, span⟩ := t
  change kind = k at h
  subst h
  rcases value with _ | v
  · rfl
  · cases kind <;> first | exact ht.elim | cases hk

theorem isEnd_of_isMark {t : Token} {k : Token.Kind} (hk : k.isMark = true) (h : t.kind = k) :
    t.isEnd = false := by
  subst h
  rw [Token.isEnd]
  cases ht : t.kind <;> first | rfl | (rw [ht] at hk; cases hk)

/-- A name or a literal that is a token has a value. -/
theorem lexeme_eq_value {t : Token} {k : Token.Kind} (ht : t.lexeme.Valid)
    (hk : k.hasValue = true) (h : t.kind = k) : t.lexeme = (k, some t.text) := by
  obtain ⟨kind, value, span⟩ := t
  change kind = k at h
  subst h
  rcases value with _ | v
  · cases kind <;> first | exact absurd hk (by decide) | cases ht
  · rfl

theorem isEnd_of_hasValue {t : Token} {k : Token.Kind} (hk : k.hasValue = true) (h : t.kind = k) :
    t.isEnd = false := by
  subst h
  rw [Token.isEnd]
  cases ht : t.kind <;> first | rfl | (rw [ht] at hk; cases hk)

theorem reads_expect {k : Token.Kind} (hc : c.Within l) (hk : k.isMark = true) :
    Reads φ limit (expect k) (expect k) c (Spelled (fun _ => [Lexeme.mark k]) fun _ => True) := by
  refine Reads.ifToken (fun _ => rfl) (fun h => ?_) fun _ => ?_
  · have hkind : c.current.kind = k := by simpa using h
    have he := isEnd_of_isMark hk hkind
    refine (reads_advance he).imp fun _ ls hls => ⟨?_, trivial⟩
    rw [hls, lexeme_eq_mark (hc.valid he) hk hkind]
  · exact .fail ⟨[Lexeme.mark k], (), by simpa [Lexeme.isPlain] using hk, rfl, trivial⟩

theorem reads_expectWord {w : String} (hc : c.Within l) (hw : (Lexeme.word w).isPlain = true) :
    Reads φ limit (expectWord w) (expectWord w) c
      (Spelled (fun _ => [Lexeme.word w]) fun _ => True) := by
  refine Reads.ifToken (fun _ => rfl) (fun h => ?_) fun _ => ?_
  · obtain ⟨hkind, htext⟩ : c.current.kind = .name ∧ c.current.text = w := by
      simpa [Token.isWord] using h
    have he := isEnd_of_hasValue rfl hkind
    refine (reads_advance he).imp fun _ ls hls => ⟨?_, trivial⟩
    rw [hls, lexeme_eq_value (hc.valid he) rfl hkind, htext]
  · exact .fail ⟨[Lexeme.word w], (), by simpa using hw, rfl, trivial⟩

theorem reads_name_of {P : String → Prop} (hc : c.Within l)
    (hP : c.current.kind = .name → P c.current.text) (ha : c.current.kind ≠ .name → P "a") :
    Reads φ limit name name c (Spelled (fun n => [Lexeme.word n.text]) fun n => P n.text) := by
  refine Reads.get (fun c' h => by rw [h]) ?_
  simp only [Token.kind_move]
  refine Reads.ite (fun h => ?_) fun h => ?_
  · have hkind : c.current.kind = .name := by simpa using h
    have he := isEnd_of_hasValue rfl hkind
    refine Reads.advance hc he fun d _ _ => .pure ⟨?_, hP hkind⟩ rfl
    rw [lexeme_eq_value (hc.valid he) rfl hkind]
  · exact .fail ⟨[Lexeme.word "a"], ⟨"a", .empty 0⟩, by decide, rfl, ha (by simpa using h)⟩

theorem reads_name (hc : c.Within l) :
    Reads φ limit name name c (Spelled (fun n => [Lexeme.word n.text]) fun _ => True) :=
  reads_name_of (P := fun _ => True) hc (fun _ => trivial) fun _ => trivial

theorem Reads.advance_word {w : String} {K K' : Unit → Rule β} (hc : c.Within l)
    (h : c.current.isWord w = true)
    (hk : ∀ d, d.Within l → Reads φ limit (K ()) (K' ()) d fun y ls => M y (Lexeme.word w :: ls)) :
    Reads φ limit (Rule.advance >>= K) (Rule.advance >>= K') c M := by
  obtain ⟨hkind, htext⟩ : c.current.kind = .name ∧ c.current.text = w := by
    simpa [Token.isWord] using h
  have he := isEnd_of_hasValue rfl hkind
  refine Reads.advance hc he fun d _ hd => ?_
  rw [lexeme_eq_value (hc.valid he) rfl hkind, htext]
  exact hk d hd

/-- A token that is taken if it is there; taking it brings a second run within a smaller bound. -/
theorem Reads.accept_succ {k : Token.Kind} {K K' : Bool → Rule β} (hc : c.Within l)
    (hk : k.isMark = true)
    (ht : ∀ d, c.current.kind = k → c.Passes [c.current] d → d.Within l →
      Reads φ limit (K true) (K' true) d fun y ls => M y (Lexeme.mark k :: ls))
    (hf : c.current.kind ≠ k → Reads φ (limit + 1) (K false) (K' false) c M) :
    Reads φ (limit + 1) (accept k >>= K) (accept k >>= K') c M := by
  rw [accept_bind, accept_bind]
  refine Reads.ifToken (fun _ => rfl) (fun h => ?_) fun h => hf (by simpa using h)
  have hkind : c.current.kind = k := by simpa using h
  have he := isEnd_of_isMark hk hkind
  refine Reads.advance_succ hc he fun d hp hd => ?_
  rw [lexeme_eq_mark (hc.valid he) hk hkind]
  exact ht d hkind hp hd

theorem Reads.accept {k : Token.Kind} {K K' : Bool → Rule β} (hc : c.Within l)
    (hk : k.isMark = true)
    (ht : c.current.kind = k → ∀ d, d.Within l →
      Reads φ limit (K true) (K' true) d fun y ls => M y (Lexeme.mark k :: ls))
    (hf : c.current.kind ≠ k → Reads φ limit (K false) (K' false) c M) :
    Reads φ limit (accept k >>= K) (accept k >>= K') c M := by
  rw [accept_bind, accept_bind]
  refine Reads.ifToken (fun _ => rfl) (fun h => ?_) fun h => hf (by simpa using h)
  have hkind : c.current.kind = k := by simpa using h
  have he := isEnd_of_isMark hk hkind
  refine Reads.advance hc he fun d _ hd => ?_
  rw [lexeme_eq_mark (hc.valid he) hk hkind]
  exact ht hkind d hd

end Steps

end Rule

end QueryDocs
