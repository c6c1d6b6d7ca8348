import QueryDocs.Proofs.Grammar.Reads

/-! # What options and repetitions read

Every round of a repetition takes a token, so a bound on the number of tokens left is a bound on the
number of rounds, and the bound of a repetition is never reached. -/

namespace QueryDocs.Rule

open Lexeme (mark ofOption enclosed barred)

section Repetition
variable {α : Type} [Labeled α] {φ : Nat → Nat} {l limit : Nat} {c : Cursor} {p : Token → Bool}
  {item item' : Rule α} {g : α → List Lexeme} {P : α → Prop}

theorem reads_optional (hc : c.Within l) (hp : ∀ t : Token, p (t.move φ) = p t)
    (h : p c.current = true → Reads φ limit item item' c (Spelled g P)) :
    Reads φ limit (optional p item) (optional p item') c
      (Spelled (ofOption g) fun o => ∀ x ∈ o, P x) := by
  refine Reads.ifToken hp (fun ht => ?_) fun _ => .pure ⟨rfl, by simp⟩ rfl
  refine Reads.bind hc (h ht) (fun x _ hx _ => .pure ⟨by simp [ofOption], by simpa using hx⟩ rfl)
    fun x hx => ⟨[], some x, rfl, by simp [ofOption], by simpa using hx⟩

/-- **A repetition reads one item after the other**, as long as the next token has a property. What
is known of an item, and of the items from a token on, may depend on the token they start at. -/
theorem reads_rounds {N : Token → α → List Lexeme → Prop} {M : Token → List α → List Lexeme → Prop}
    (hp : ∀ t : Token, p (t.move φ) = p t)
    (hitem : ∀ c : Cursor, c.Within l → p c.current = true →
      Reads φ limit item item' c (N c.current))
    (hne : ∀ t x, ¬ N t x []) (hnil : ∀ t, M t [] []) (hlast : ∀ t x ls, N t x ls → M t [x] ls)
    (hcons : ∀ (c d : Cursor) (x : α) (ls : List Lexeme) (xs : List α) (ms : List Lexeme),
      item c = .ok (x, d) → N c.current x ls → M d.current xs ms →
        M c.current (x :: xs) (ls ++ ms)) :
    ∀ {n m k : Nat} {c : Cursor}, n ≤ l → k ≤ limit → k ≤ m → c.Within n →
      Reads φ k (repeatWhile p item n) (repeatWhile p item' m) c (M c.current) := by
  intro n
  induction n with
  | zero => intro _ _ _ _ _ _ hc; exact absurd hc.bound (Nat.not_lt_zero _)
  | succ n ih =>
    intro m k c hn hk hkm hc
    have hstep : ∀ {m k : Nat}, k ≤ limit → k ≤ m + 1 →
        Reads φ k (repeatWhile p item (n + 1)) (repeatWhile p item' (m + 1)) c (M c.current) := by
      intro m k hk hkm
      have hts : ∀ {x : α} {ts : List Token}, N c.current x (ts.map Token.lexeme) → ts ≠ [] := by
        rintro x _ hx rfl
        exact hne _ x hx
      have hpred : ∀ (x : α) (ts : List Token) (c' d' : Cursor), N c.current x (ts.map Token.lexeme) →
          c'.Within k → c'.Passes (ts.map (Token.move φ)) d' → d'.Within (k - 1) := by
        intro x ts c' d' hx hw hpass
        obtain ⟨k, rfl⟩ : ∃ j, k = j + 1 := ⟨k - 1, by have := hw.bound; omega⟩
        exact hw.pred hpass (by simpa using hts hx)
      refine Reads.ifToken hp (fun ht => ?_) fun _ => .pure (hnil _) rfl
      refine ((hitem c (hc.mono hn) ht).mono hk).bind_within hpred
        (fun x d ts hrun hpass hx => ?_) fun _ _ _ x ls hx => ⟨[], [x], rfl, by simpa using hlast _ x ls hx⟩
      exact (ih (by omega) (by omega) (by omega) (hc.pred hpass (hts hx))).map
        (fun xs ls hxs => hcons c d x _ xs ls hrun hx hxs) fun _ => rfl
    rcases m with _ | m
    · -- a second run within no bound is no run at all
      obtain rfl : k = 0 := by omega
      exact (hstep (Nat.zero_le _) (Nat.zero_le 1)).zero
    · exact hstep hk hkm

theorem reads_repeatWhile (hp : ∀ t : Token, p (t.move φ) = p t)
    (hitem : ∀ c : Cursor, c.Within l → p c.current = true →
      Reads φ limit item item' c (Spelled g P))
    (hne : ∀ x, P x → g x ≠ []) (hc : c.Within l) :
    Reads φ limit (repeatWhile p item l) (repeatWhile p item' limit) c
      (Spelled (·.flatMap g) fun xs => ∀ x ∈ xs, P x) := by
  refine reads_rounds (N := fun _ => Spelled g P)
    (M := fun _ => Spelled (·.flatMap g) fun xs => ∀ x ∈ xs, P x) hp hitem
    (fun _ x h => hne x h.2 h.1.symm) (fun _ => ⟨rfl, by simp⟩) (fun _ x ls h => ?_)
    (fun _ _ x ls xs ms _ h hs => ?_) le_rfl le_rfl le_rfl hc
  · obtain ⟨rfl, hx⟩ := h
    exact ⟨by simp, by simpa using hx⟩
  · obtain ⟨rfl, hx⟩ := h
    obtain ⟨rfl, hxs⟩ := hs
    exact ⟨by simp, by simpa using ⟨hx, hxs⟩⟩

theorem reads_upTo {close : Token.Kind} (hclose : close.isMark = true)
    (hitem : ∀ c : Cursor, c.Within l → Reads φ limit item item' c (Spelled g P))
    (hne : ∀ x, P x → g x ≠ []) (hc : c.Within l) :
    Reads φ limit (upTo close item l) (upTo close item' limit) c
      (Spelled (fun xs => xs.flatMap g ++ [mark close]) fun xs => ∀ x ∈ xs, P x) := by
  have hplain : [mark close].all Lexeme.isPlain = true := by simpa [Lexeme.isPlain] using hclose
  refine Reads.bind hc (reads_repeatWhile (fun _ => rfl) (fun c hc _ => hitem c hc) hne hc) (fun xs d hxs hd => ?_) fun xs hxs => ⟨[mark close], xs, hplain, rfl, hxs⟩
  refine Reads.bind hd (reads_expect hd hclose) (fun _ _ _ _ => .pure ⟨by simp, hxs⟩ rfl)
    fun _ _ => ⟨[], xs, rfl, by simp, hxs⟩

/-- A node whose tokens are plain. -/
def Sample (g : α → List Lexeme) (P : α → Prop) (x : α) : Prop :=
  P x ∧ (g x).all Lexeme.isPlain = true

section Enclosed
variable {opening close : Token.Kind} (hopening : opening.isMark = true)
  (hclose : close.isMark = true) {x₀ : α} (hx₀ : Sample g P x₀)
  (hitem : ∀ c : Cursor, c.Within l → Reads φ limit item item' c (Spelled g P))
  (hne : ∀ x, P x → g x ≠ [])
include hopening hclose hx₀ hitem hne

theorem reads_between_succ (hc : c.Within (l + 1)) :
    Reads φ (limit + 1) (between l opening item close) (between limit opening item' close) c
      (Spelled (fun xs => mark opening :: xs.flatMap g ++ [mark close])
        fun xs => xs ≠ [] ∧ ∀ x ∈ xs, P x) := by
  obtain ⟨hp₀, hplain₀⟩ := hx₀
  have hplain : [mark close].all Lexeme.isPlain = true := by simpa [Lexeme.isPlain] using hclose
  refine Reads.bind_succ hc (reads_expect hc hopening) (by simp) (fun _ d _ hd => ?_) fun _ _ =>
    ⟨g x₀ ++ [mark close], [x₀], by simp [hplain₀, hplain], by simp, by simp, by simpa using hp₀⟩
  refine Reads.bind hd (hitem d hd) (fun x e hx he => ?_) fun x hx =>
    ⟨[mark close], [x], hplain, by simp, by simp, by simpa using hx⟩
  refine Reads.bind he (reads_upTo hclose hitem hne he)
    (fun xs _ hxs _ => .pure ⟨by simp, by simp, by simpa using ⟨hx, hxs⟩⟩ rfl) fun xs hxs =>
    ⟨[], x :: xs, rfl, by simp, by simp, by simpa using ⟨hx, hxs⟩⟩

theorem reads_between (hc : c.Within l) :
    Reads φ limit (between l opening item close) (between limit opening item' close) c
      (Spelled (fun xs => mark opening :: xs.flatMap g ++ [mark close])
        fun xs => xs ≠ [] ∧ ∀ x ∈ xs, P x) :=
  (reads_between_succ hopening hclose hx₀ hitem hne (hc.mono (Nat.le_succ l))).mono
    (Nat.le_succ limit)

theorem reads_optionalBetween (hc : c.Within l) :
    Reads φ limit (optionalBetween l opening item close) (optionalBetween limit opening item' close)
      c (Spelled (enclosed opening close g) fun xs => ∀ x ∈ xs, P x) := by
  refine Reads.ifToken (fun _ => rfl) (fun _ => ?_) fun _ => .pure ⟨rfl, by simp⟩ rfl
  refine (reads_between hopening hclose hx₀ hitem hne hc).imp fun xs ls h => ?_
  obtain ⟨rfl, hxs, hall⟩ := h
  cases xs with
  | nil => exact absurd rfl hxs
  | cons x xs => exact ⟨rfl, hall⟩

end Enclosed

theorem reads_separated {x₀ : α} (hx₀ : Sample g P x₀)
    (hitem : ∀ c : Cursor, c.Within l → Reads φ limit item item' c (Spelled g P))
    (hc : c.Within l) :
    Reads φ limit (separated l .pipe item) (separated limit .pipe item') c
      (Spelled (barred g) fun xs => xs ≠ [] ∧ ∀ x ∈ xs, P x) := by
  obtain ⟨hp₀, hplain₀⟩ := hx₀
  have hmore : ∀ c : Cursor, c.Within l → (c.current.kind == .pipe) = true →
      Reads φ limit (do advance; item) (do advance; item') c
        (Spelled (fun x => mark .pipe :: g x) P) := by
    intro c hc hpipe
    have hkind : c.current.kind = .pipe := by simpa using hpipe
    have he : c.current.isEnd = false := isEnd_of_isMark rfl hkind
    refine Reads.advance hc he fun d _ hd => (hitem d hd).imp fun x ls hx => ?_
    obtain ⟨rfl, hx⟩ := hx
    exact ⟨by rw [lexeme_eq_mark (hc.valid he) rfl hkind], hx⟩
  refine Reads.bind hc (hitem c hc) (fun x d hx hd => ?_) fun x hx =>
    ⟨[], [x], rfl, by simp [barred], by simp, by simpa using hx⟩
  refine Reads.bind hd (reads_repeatWhile (fun _ => rfl) hmore (by simp) hd)
    (fun xs _ hxs _ => .pure ⟨by simp [barred], by simp, by simpa using ⟨hx, hxs⟩⟩ rfl) fun xs hxs =>
    ⟨[], x :: xs, rfl, by simp [barred], by simp, by simpa using ⟨hx, hxs⟩⟩

/-- Items with bars between them, and with one before them or without it. -/
theorem reads_leadingBar {x₀ : α} (hx₀ : Sample g P x₀)
    (hitem : ∀ c : Cursor, c.Within l → Reads φ limit item item' c (Spelled g P))
    (hc : c.Within l) :
    Reads φ limit (do let _ ← accept .pipe; separated l .pipe item)
      (do let _ ← accept .pipe; separated limit .pipe item') c
      fun xs ls => (∃ full, ls = leadingBar full ++ barred g xs) ∧ xs ≠ [] ∧ ∀ x ∈ xs, P x := by
  refine Reads.accept hc rfl (fun _ d hd => ?_) fun _ => ?_
  · refine (reads_separated hx₀ hitem hd).imp fun xs ls h => ?_
    obtain ⟨rfl, hxs⟩ := h
    exact ⟨⟨true, rfl⟩, hxs⟩
  · refine (reads_separated hx₀ hitem hc).imp fun xs ls h => ?_
    obtain ⟨rfl, hxs⟩ := h
    exact ⟨⟨false, rfl⟩, hxs⟩

end Repetition

end QueryDocs.Rule
