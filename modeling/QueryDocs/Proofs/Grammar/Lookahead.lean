import QueryDocs.Proofs.Grammar.ReadsDocument

/-! # What a rule does not look at

A definition ends before a token that cannot continue it. Which token that is does not matter: the
rule reads the same in front of every such token (`firm_definition`), be it the start of another
definition or the end of the text. `Indifferent` says this of a rule at a place, and `Firm` says
besides that the rule takes a token there, so that it starts at the same token in both runs. -/

namespace QueryDocs

/-! ### Places that tokens lead to -/

section Passes
variable {limit n : Nat} {φ : Nat → Nat} {c c' d d' : Cursor} {t : Token} {ts us : List Token}

theorem Cursor.Passes.unique (h : c.Passes ts d) (h' : c.Passes us d) (hc : c.Within limit) :
    ts = us := by
  induction h generalizing us with
  | nil =>
    have hcount := (hc.remaining_of_passes h').2
    exact (List.length_eq_zero_iff.mp (by omega)).symm
  | @cons c c' d ts he ha hs ih =>
    cases h' with
    | nil =>
      have hcount := (hc.remaining_of_passes (.cons he ha hs)).2
      rw [List.length_cons] at hcount
      omega
    | cons _ ha' hs' =>
      rw [ha] at ha'
      cases ha'
      rw [ih hs' (Cursor.within_advance hc he ha).1]

/-- The end of the token before is forgotten when a token is taken. -/
theorem Cursor.Passes.fresh (h : c.Passes (t :: ts) d) (n : Nat) :
    (⟨c.current, c.rest, n⟩ : Cursor).Passes (t :: ts) d := by
  obtain ⟨current, rest, m⟩ := c
  cases h with
  | cons he ha hs => exact .cons he (by cases rest <;> exact ha) hs

/-- Two runs over the same tokens, up to the offsets, are at like places if their ends are. -/
theorem Cursor.tracks_of_passes (hc : c'.Within limit) (h : c.Passes ts d)
    (h' : c'.Passes (ts.map (Token.move φ)) d') (hlast : c'.lastStop = φ c.lastStop)
    (hcurrent : d'.current = d.current.move φ) : c.Tracks φ limit ts d c' d' := by
  refine ⟨hc, ⟨?_, hlast⟩, h', hcurrent, ?_⟩
  · rw [h'.current, h.current, hcurrent]
    cases ts <;> rfl
  · rw [h'.lastStop, h.lastStop, hlast, List.getLast?_map]
    cases ts.getLast? <;> rfl

end Passes

/-! ### Tokens behind -/

/-- A second run takes the same tokens as a first one, and behind them stands the same token, or
some property holds of both tokens that stand there. -/
structure Cursor.Alike (limit : Nat) (P : Token → Prop) (c : Cursor) (ts : List Token)
    (d c' d' : Cursor) : Prop where
  within : c'.Within limit
  lastStop : c'.lastStop = c.lastStop
  passes : c'.Passes ts d'
  behind : d'.current = d.current ∨ P d.current ∧ P d'.current

/-- The place behind some tokens is alike if the place behind further ones is: it is in front of the
same token, unless there are no further ones. -/
theorem Cursor.Alike.split {limit : Nat} {P Q : Token → Prop} {c d e c' e' : Cursor}
    {ts us : List Token} (h : c.Alike limit Q (ts ++ us) e c' e') (h₁ : c.Passes ts d)
    (h₂ : d.Passes us e) (hPQ : us = [] → ∀ t, Q t → P t) :
    ∃ d', c.Alike limit P ts d c' d' ∧ d.Alike limit Q us e d' e' := by
  obtain ⟨d', h₁', h₂'⟩ := h.passes.split
  have hbehind : d'.current = d.current ∨ P d.current ∧ P d'.current := by
    cases us with
    | nil =>
      cases h₂
      cases h₂'
      exact h.behind.imp id fun hQ => ⟨hPQ rfl _ hQ.1, hPQ rfl _ hQ.2⟩
    | cons u us => exact Or.inl (by rw [h₂'.current, h₂.current]; rfl)
  have hlast : d'.lastStop = d.lastStop := by rw [h₁'.lastStop, h₁.lastStop, h.lastStop]
  exact ⟨d', ⟨h.within, h.lastStop, h₁', hbehind⟩, ⟨h.within.passes h₁', hlast, h₂', h.behind⟩⟩

theorem Cursor.Alike.current {limit : Nat} {P : Token → Prop} {c d c' d' : Cursor} {ts : List Token}
    (h : c.Alike limit P ts d c' d') (hp : c.Passes ts d) (hne : ts ≠ []) :
    c'.current = c.current := by
  obtain ⟨t, ts, rfl⟩ := List.exists_cons_of_ne_nil hne
  rw [h.passes.current, hp.current]
  rfl

/-- A property that no token behind the tokens has is one of both current tokens or of none. -/
theorem Cursor.Alike.test {limit : Nat} {P : Token → Prop} {c d c' d' : Cursor} {ts : List Token}
    (h : c.Alike limit P ts d c' d') (hp : c.Passes ts d) {p : Token → Bool}
    (hP : ∀ t, P t → p t = false) : p c'.current = p c.current := by
  cases ts with
  | nil =>
    have hbehind := h.behind
    cases hp
    cases h.passes
    rcases hbehind with h | h
    · rw [h]
    · rw [hP _ h.1, hP _ h.2]
  | cons t ts => rw [h.current hp (List.cons_ne_nil t ts)]

namespace Rule

/-- What a rule reads does not depend on which token stands behind it, as long as a property holds of
that token. -/
def Indifferent {α : Type} (limit : Nat) (P : α → Token → Prop) (r : Rule α) (c : Cursor) : Prop :=
  c.Within limit → ∀ x d, r c = .ok (x, d) → ∃ ts, c.Passes ts d ∧
    ∀ c' d', c.Alike limit (P x) ts d c' d' → r c' = .ok (x, d')

/-- The same of a rule that takes a token, so that it starts at the same token in both runs. -/
structure Firm {α : Type} (limit : Nat) (P : α → Token → Prop) (r : Rule α) (c : Cursor) : Prop where
  indifferent : Indifferent limit P r c
  shortens : c.Within limit → ∀ x d, r c = .ok (x, d) → d.remaining < c.remaining

/-- A rule reads the same in front of the same token. -/
abbrev Local {α : Type} (limit : Nat) (r : Rule α) (c : Cursor) : Prop :=
  Indifferent limit (fun _ _ => False) r c

section Steps
variable {α β : Type} {limit : Nat} {c : Cursor} {r : Rule α} {k : α → Rule β}
  {P : α → Token → Prop} {Q : β → Token → Prop}

/-- What is read has the offsets that it was read with: the run is one of its own second runs. -/
theorem Reads.relabel_id [Labeled α] {N : α → List Lexeme → Prop} {x : α} {d : Cursor}
    (h : Reads id limit r r c N) (hc : c.Within limit) (hr : r c = .ok (x, d)) :
    relabel (.move id) x = x := by
  obtain ⟨ts, hp, -, hsame⟩ := h.ok hr
  have hid : ts.map (Token.move id) = ts := List.map_id ts
  have hrun := hsame c d ⟨hc, ⟨rfl, rfl⟩, by rwa [hid], ⟨rfl, rfl⟩⟩
  rw [hr] at hrun
  exact (Prod.mk.inj (Except.ok.inj hrun)).1.symm

theorem Reads.local [Labeled α] {N : α → List Lexeme → Prop}
    (h : c.Within limit → Reads id limit r r c N) : Local limit r c := by
  intro hc x d hr
  obtain ⟨ts, hp, -, hsame⟩ := (h hc).ok hr
  have hid : ts.map (Token.move id) = ts := List.map_id ts
  refine ⟨ts, hp, fun c' d' h' => ?_⟩
  have hd : d'.current = d.current := h'.behind.resolve_right fun h => h.1
  have hlast : d'.lastStop = d.lastStop := by rw [h'.passes.lastStop, hp.lastStop, h'.lastStop]
  have hcurrent : c'.current = c.current := by rw [h'.passes.current, hp.current, hd]
  have hrun := hsame c' d'
    ⟨h'.within, ⟨hcurrent, h'.lastStop⟩, by rw [hid]; exact h'.passes, hd, hlast⟩
  rwa [(h hc).relabel_id hc hr] at hrun

theorem Indifferent.imp {P' : α → Token → Prop} (h : Indifferent limit P r c)
    (hP : ∀ x t, P' x t → P x t) : Indifferent limit P' r c := by
  intro hc x d hr
  obtain ⟨ts, hp, hsame⟩ := h hc x d hr
  exact ⟨ts, hp, fun c' d' h => hsame c' d' { h with
    behind := h.behind.imp id fun h => ⟨hP x _ h.1, hP x _ h.2⟩ }⟩

theorem Indifferent.mono {limit' : Nat} (h : Indifferent limit' P r c) (hl : limit ≤ limit') :
    Indifferent limit P r c := by
  intro hc x d hr
  obtain ⟨ts, hp, hsame⟩ := h (hc.mono hl) x d hr
  exact ⟨ts, hp, fun c' d' h => hsame c' d' { h with within := h.within.mono hl }⟩

theorem Firm.mono {limit' : Nat} (h : Firm limit' P r c) (hl : limit ≤ limit') :
    Firm limit P r c :=
  ⟨h.indifferent.mono hl, fun hc => h.shortens (hc.mono hl)⟩

theorem Firm.ne_nil (h : Firm limit P r c) {x : α} {d : Cursor} {ts : List Token}
    (hc : c.Within limit) (hr : r c = .ok (x, d)) (hp : c.Passes ts d) : ts ≠ [] := by
  rintro rfl
  cases hp
  exact Nat.lt_irrefl _ (h.shortens hc x _ hr)

theorem Indifferent.remaining_le (h : Indifferent limit P r c) {x : α} {d : Cursor}
    (hc : c.Within limit) (hr : r c = .ok (x, d)) : d.Within limit ∧ d.remaining ≤ c.remaining := by
  obtain ⟨ts, hp, -⟩ := h hc x d hr
  obtain ⟨hd, hcount⟩ := hc.remaining_of_passes hp
  exact ⟨hd, by omega⟩

theorem Indifferent.pure (x : α) : Indifferent limit P (pure x) c := by
  intro _ y d hr
  cases hr
  refine ⟨[], .nil c, fun c' d' h => ?_⟩
  cases h.passes
  rfl

/-- One rule after the other. The first one can end in front of the token that the second one ends
in front of. -/
theorem Indifferent.bind (h : Indifferent limit P r c) (hk : ∀ x d, Indifferent limit Q (k x) d)
    (hPQ : ∀ x y t, Q y t → P x t) : Indifferent limit Q (r >>= k) c := by
  intro hc y e hr
  obtain ⟨x, d, h1, h2⟩ := bind_eq_ok hr
  obtain ⟨ts, hp, hsame⟩ := h hc x d h1
  obtain ⟨us, hp', hsame'⟩ := hk x d (hc.passes hp) y e h2
  refine ⟨ts ++ us, hp.append hp', fun c' e' h => ?_⟩
  obtain ⟨d', hd, he⟩ := h.split hp hp' fun _ t => hPQ x y t
  rw [bind_ok (hsame c' d' hd)]
  exact hsame' d' e' he

theorem Firm.bind (h : Firm limit P r c) (hk : ∀ x d, Indifferent limit Q (k x) d)
    (hPQ : ∀ x y t, Q y t → P x t) : Firm limit Q (r >>= k) c := by
  refine ⟨h.indifferent.bind hk hPQ, fun hc y e hr => ?_⟩
  obtain ⟨x, d, h1, h2⟩ := bind_eq_ok hr
  obtain ⟨hd, -⟩ := h.indifferent.remaining_le hc h1
  exact Nat.lt_of_le_of_lt ((hk x d).remaining_le hd h2).2 (h.shortens hc x d h1)

/-- The same where the first rule brings the second one within a smaller bound. -/
theorem Firm.bind_succ (h : Firm (limit + 1) P r c) (hk : ∀ x d, Indifferent limit Q (k x) d)
    (hPQ : ∀ x y t, Q y t → P x t) : Firm (limit + 1) Q (r >>= k) c := by
  have hmid : ∀ {x d}, c.Within (limit + 1) → r c = .ok (x, d) → d.Within limit := by
    intro x d hc h1
    obtain ⟨ts, hp, -⟩ := h.indifferent hc x d h1
    exact hc.pred hp (h.ne_nil hc h1 hp)
  constructor
  · intro hc y e hr
    obtain ⟨x, d, h1, h2⟩ := bind_eq_ok hr
    obtain ⟨ts, hp, hsame⟩ := h.indifferent hc x d h1
    obtain ⟨us, hp', hsame'⟩ := hk x d (hmid hc h1) y e h2
    refine ⟨ts ++ us, hp.append hp', fun c' e' halike => ?_⟩
    obtain ⟨d', hd, he⟩ := halike.split hp hp' fun _ t => hPQ x y t
    rw [bind_ok (hsame c' d' hd)]
    exact hsame' d' e' { he with within := halike.within.pred hd.passes (h.ne_nil hc h1 hp) }
  · intro hc y e hr
    obtain ⟨x, d, h1, h2⟩ := bind_eq_ok hr
    exact Nat.lt_of_le_of_lt ((hk x d).remaining_le (hmid hc h1) h2).2 (h.shortens hc x d h1)

/-- In front of a rule that takes a token, another one ends in front of this token. -/
theorem Firm.after (h : Local limit r c) (hk : ∀ x d, Firm limit Q (k x) d) :
    Firm limit Q (r >>= k) c := by
  constructor
  · intro hc y e hr
    obtain ⟨x, d, h1, h2⟩ := bind_eq_ok hr
    obtain ⟨ts, hp, hsame⟩ := h hc x d h1
    obtain ⟨us, hp', hsame'⟩ := (hk x d).indifferent (hc.passes hp) y e h2
    have hne := (hk x d).ne_nil (hc.passes hp) h2 hp'
    refine ⟨ts ++ us, hp.append hp', fun c' e' halike => ?_⟩
    obtain ⟨d', hd, he⟩ := halike.split hp hp' fun hnil => absurd hnil hne
    rw [bind_ok (hsame c' d' hd)]
    exact hsame' d' e' he
  · intro hc y e hr
    obtain ⟨x, d, h1, h2⟩ := bind_eq_ok hr
    obtain ⟨hd, hle⟩ := h.remaining_le hc h1
    exact Nat.lt_of_lt_of_le ((hk x d).shortens hd y e h2) hle

theorem Firm.fail {e : Expectation} : Firm limit P (fail e : Rule α) c :=
  { indifferent := fun _ _ _ hr => by cases hr
    shortens := fun _ _ _ hr => by cases hr }

theorem Firm.ite {b : Bool} {a a' : Rule α} (h : b = true → Firm limit P a c)
    (h' : b = false → Firm limit P a' c) : Firm limit P (if b = true then a else a') c := by
  cases b with
  | true => exact h rfl
  | false => exact h' rfl

/-- A rule that takes a token may look at the current one first. -/
theorem Firm.get {f : Cursor → Rule β} (hf : ∀ c' : Cursor, c'.current = c.current → f c' = f c)
    (h : Firm limit Q (f c) c) : Firm limit Q (get >>= f) c := by
  refine ⟨fun hc y e hr => ?_, h.shortens⟩
  obtain ⟨ts, hp, hsame⟩ := h.indifferent hc y e hr
  refine ⟨ts, hp, fun c' e' halike => ?_⟩
  rw [← hsame c' e' halike, ← hf c' (halike.current hp (h.ne_nil hc hr hp))]
  rfl

theorem Firm.start {K : Nat → Rule β} (h : ∀ n, Firm limit Q (K n) c) :
    Firm limit Q (start >>= K) c :=
  Firm.get (f := fun c => K c.current.span.start) (fun c' h => by rw [h]) (h _)

theorem Firm.startOf {K : Nat → Rule β} (v : Option StringValue) (h : ∀ n, Firm limit Q (K n) c) :
    Firm limit Q (startOf v >>= K) c := by
  cases v with
  | none => exact Firm.start h
  | some v => exact h v.span.start

/-- A choice by the current token, where no token that may stand behind the second rule leads to the
first one. -/
theorem Indifferent.ifToken {p : Token → Bool} {a b : Rule α}
    (hp : ∀ x d, b c = .ok (x, d) → ∀ t, P x t → p t = false)
    (ha : p c.current = true → Firm limit P a c) (hb : p c.current = false → Indifferent limit P b c) :
    Indifferent limit P (atToken p >>= fun y => if y = true then a else b) c := by
  have hchoice : ∀ c : Cursor, (atToken p >>= fun y => if y = true then a else b) c =
      (if p c.current = true then a else b) c := fun _ => rfl
  intro hc x d hr
  rw [hchoice] at hr
  cases hcurrent : p c.current with
  | true =>
    rw [if_pos hcurrent] at hr
    obtain ⟨ts, hpass, hsame⟩ := (ha hcurrent).indifferent hc x d hr
    have hne := (ha hcurrent).ne_nil hc hr hpass
    refine ⟨ts, hpass, fun c' d' h => ?_⟩
    rw [hchoice, h.current hpass hne, if_pos hcurrent]
    exact hsame c' d' h
  | false =>
    rw [hcurrent, if_neg (by simp)] at hr
    obtain ⟨ts, hpass, hsame⟩ := hb hcurrent hc x d hr
    refine ⟨ts, hpass, fun c' d' h => ?_⟩
    rw [hchoice, h.test hpass (hp x d hr), hcurrent, if_neg (by simp)]
    exact hsame c' d' h

theorem Firm.atToken {p : Token → Bool} {K : Bool → Rule β} (h : Firm limit Q (K (p c.current)) c) :
    Firm limit Q (Rule.atToken p >>= K) c :=
  Firm.get (f := fun c => K (p c.current)) (fun c' h => by rw [h]) h

theorem Firm.ifToken {p : Token → Bool} {a b : Rule α} (ha : p c.current = true → Firm limit P a c)
    (hb : p c.current = false → Firm limit P b c) :
    Firm limit P (Rule.atToken p >>= fun y => if y = true then a else b) c :=
  Firm.atToken (Firm.ite ha hb)

/-- What is put together from the result and the end of the last token depends on nothing ahead. -/
theorem Indifferent.finish {F : α → Nat → β} (h : Indifferent limit P r c)
    (hk : ∀ x d, k x d = .ok (F x d.lastStop, d)) (hPQ : ∀ x n t, Q (F x n) t → P x t) :
    Indifferent limit Q (r >>= k) c := by
  intro hc y d hr
  obtain ⟨x, e, h1, h2⟩ := bind_eq_ok hr
  rw [hk] at h2
  cases h2
  obtain ⟨ts, hp, hsame⟩ := h hc x d h1
  refine ⟨ts, hp, fun c' d' halike => ?_⟩
  have hlast : d'.lastStop = d.lastStop := by
    rw [halike.passes.lastStop, hp.lastStop, halike.lastStop]
  rw [bind_ok (hsame c' d' { halike with
    behind := halike.behind.imp id fun h => ⟨hPQ _ _ _ h.1, hPQ _ _ _ h.2⟩ }), hk, hlast]

theorem Firm.finish {F : α → Nat → β} (h : Firm limit P r c)
    (hk : ∀ x d, k x d = .ok (F x d.lastStop, d)) (hPQ : ∀ x n t, Q (F x n) t → P x t) :
    Firm limit Q (r >>= k) c := by
  refine ⟨h.indifferent.finish hk hPQ, fun hc y d hr => ?_⟩
  obtain ⟨x, e, h1, h2⟩ := bind_eq_ok hr
  rw [hk] at h2
  cases h2
  exact h.shortens hc x d h1

theorem Indifferent.spanned {start : Nat} {f : α → Span → β} (h : Indifferent limit P r c)
    (hPQ : ∀ x s t, Q (f x s) t → P x t) :
    Indifferent limit Q (r >>= fun x => spanFrom start >>= fun s => Pure.pure (f x s)) c :=
  h.finish (F := fun x n => f x ⟨start, max n start⟩) (fun _ _ => rfl) fun _ _ _ => hPQ _ _ _

theorem Firm.spanned {start : Nat} {f : α → Span → β} (h : Firm limit P r c)
    (hPQ : ∀ x s t, Q (f x s) t → P x t) :
    Firm limit Q (r >>= fun x => spanFrom start >>= fun s => Pure.pure (f x s)) c :=
  h.finish (F := fun x n => f x ⟨start, max n start⟩) (fun _ _ => rfl) fun _ _ _ => hPQ _ _ _

theorem Firm.map {f : α → β} (h : Firm limit P r c) (hPQ : ∀ x t, Q (f x) t → P x t) :
    Firm limit Q (r >>= fun x => Pure.pure (f x)) c :=
  h.finish (F := fun x _ => f x) (fun _ _ => rfl) fun _ _ => hPQ _

/-! ### Single tokens -/

/-- A rule that takes the current token and nothing else looks at nothing behind it. -/
theorem firm_of_advance (h : ∀ x d, r c = .ok (x, d) → c.current.isEnd = false ∧
      advance c = .ok ((), d) ∧ ∀ c' d', c'.current = c.current → advance c' = .ok ((), d') →
        r c' = .ok (x, d')) : Firm limit P r c := by
  constructor
  · intro _ x d hr
    obtain ⟨he, hadvance, hsame⟩ := h x d hr
    refine ⟨[c.current], .cons he hadvance (.nil d), fun c' d' halike => ?_⟩
    have hp := halike.passes
    generalize hts : [c.current] = ts at hp
    cases hp with
    | nil => cases hts
    | cons _ hadvance' hs =>
      obtain ⟨hcurrent, rfl⟩ := List.cons.inj hts
      cases hs
      exact hsame c' d' hcurrent.symm hadvance'
  · intro hc x d hr
    obtain ⟨he, hadvance, -⟩ := h x d hr
    have := (hc.remaining_of_passes (.cons he hadvance (.nil d))).2
    rw [List.length_singleton] at this
    omega

theorem firm_advance {P : Unit → Token → Prop} (he : c.current.isEnd = false) :
    Firm limit P advance c :=
  firm_of_advance fun _ _ hr => ⟨he, hr, fun _ _ _ h => h⟩

theorem firm_expect {k : Token.Kind} {P : Unit → Token → Prop} (hk : k.isMark = true) :
    Firm limit P (expect k) c := by
  refine Firm.ifToken (fun h => firm_advance ?_) fun _ => .fail
  exact isEnd_of_isMark hk (by simpa using h)

theorem firm_expectWord {w : String} {P : Unit → Token → Prop} : Firm limit P (expectWord w) c := by
  refine Firm.ifToken (fun h => firm_advance ?_) fun _ => .fail
  simp only [Token.isWord, Bool.and_eq_true, beq_iff_eq] at h
  exact isEnd_of_hasValue rfl h.1

theorem firm_name {P : Name → Token → Prop} : Firm limit P name c := by
  refine Firm.get (fun c' h => by rw [h]) (Firm.ite (fun h => ?_) fun _ => .fail)
  have hkind : c.current.kind = .name := by simpa using h
  exact (firm_advance (P := fun _ _ => True) (isEnd_of_hasValue rfl hkind)).bind
    (fun _ _ => .pure _) fun _ _ _ _ => trivial

theorem firm_namedType {P : NamedType → Token → Prop} : Firm limit P namedType c :=
  (firm_name (P := fun _ _ => True)).bind (fun _ _ => .pure _) fun _ _ _ _ => trivial

/-! ### Repetitions -/

/-- Items that are read in front of any token of a kind that does not start another one. -/
theorem indifferent_repeatWhile {p : Token → Bool} {T : Token → Prop}
    (hp : ∀ t, T t → p t = false)
    (h : ∀ c : Cursor, p c.current = true → Firm limit (fun _ => T) r c) (n : Nat) (c : Cursor) :
    Indifferent limit (fun _ => T) (repeatWhile p r n) c := by
  induction n generalizing c with
  | zero => exact .pure []
  | succ n ih =>
    exact .ifToken (fun _ _ _ => hp) (fun hc => (h c hc).bind (fun x d => (ih d).bind
      (fun xs _ => .pure (x :: xs)) fun _ _ _ ht => ht) fun _ _ _ ht => ht) fun _ => .pure []

theorem firm_separated {T : Token → Prop} {r : Rule α} (hT : ∀ t, T t → t.kind ≠ .pipe)
    (h : ∀ c : Cursor, Firm limit (fun _ _ => True) r c) :
    Firm limit (fun _ => T) (separated limit .pipe r) c := by
  refine (h c).bind (fun x d => (indifferent_repeatWhile (T := T) (fun t ht => ?_) (fun c hc => ?_)
    limit d).bind (fun xs _ => .pure _) fun _ _ _ ht => ht) fun _ _ _ _ => trivial
  · simpa using hT t ht
  · have he : c.current.isEnd = false := isEnd_of_isMark (k := .pipe) rfl (by simpa using hc)
    exact (firm_advance (P := fun _ _ => True) he).bind (fun _ d => (h d).indifferent.imp
      fun _ _ _ => trivial) fun _ _ _ _ => trivial

section Enclosed
variable [Labeled α] {opening close : Token.Kind} {g : α → List Lexeme} {S : α → Prop}
  (hopening : opening.isMark = true) (hclose : close.isMark = true)
  (hitem : ∀ c : Cursor, c.Within limit → Reads id limit r r c (Spelled g S))
  (hne : ∀ x, S x → g x ≠ [])
include hclose hitem hne

theorem firm_upTo {P : List α → Token → Prop} : Firm limit P (upTo close r limit) c := by
  refine .after (Reads.local fun hc =>
    reads_repeatWhile (fun _ => rfl) (fun c hc _ => hitem c hc) hne hc) fun xs d => ?_
  exact (firm_expect (P := fun _ _ => True) hclose).bind (fun _ _ => .pure xs) fun _ _ _ _ => trivial

include hopening

theorem firm_between_succ {P : List α → Token → Prop} :
    Firm (limit + 1) P (between limit opening r close) c := by
  refine (firm_expect (P := fun _ _ => True) hopening).bind_succ (fun _ d => ?_)
    fun _ _ _ _ => trivial
  refine (Firm.after (Reads.local (hitem d)) fun x e => ?_).indifferent
  exact (firm_upTo (P := fun _ _ => True) hclose hitem hne).bind (fun xs _ => .pure (x :: xs))
    fun _ _ _ _ => trivial

theorem firm_between {P : List α → Token → Prop} : Firm limit P (between limit opening r close) c :=
  (firm_between_succ hopening hclose hitem hne).mono (Nat.le_succ limit)

/-- Where there are no items, none must follow. -/
theorem indifferent_optionalBetween :
    Indifferent limit (fun xs t => xs = [] → t.kind ≠ opening)
      (optionalBetween limit opening r close) c := by
  refine .ifToken (fun xs d hr t ht => ?_) (fun _ => firm_between hopening hclose hitem hne)
    fun _ => .pure []
  cases hr
  simpa using ht rfl

end Enclosed

end Steps

end Rule

end QueryDocs
