import QueryDocs.Proofs.Tokens.Scan

/-! # The tokens of a text

The tokens at the start of a text are the same in every text that starts in the same way, up to the
last of them that precedes what stands behind it (`Scans.resume`). The bound on the number of tokens
in `TokenStream.ofChars` is never reached (`Scans.ofChars`, `scans_of_ofChars`). -/

namespace QueryDocs

open QueryDocs.Text

/-! ### Streams -/

namespace TokenStream

/-- Tokens with a stream behind them. -/
def prepend : List Token → TokenStream → TokenStream
  | [], s => s
  | t :: ts, s => .token t (prepend ts s)

/-- Whether a token is one of the tokens of a stream, the last one included. -/
def Holds (t : Token) : TokenStream → Prop
  | .finish last => t = last
  | .broken _ => False
  | .token first rest => t = first ∨ rest.Holds t

/-- The first token of a stream, which is the end if there is no other. -/
def head? : TokenStream → Option Token
  | .finish last => some last
  | .broken _ => none
  | .token first _ => some first

/-- All tokens are of the form their class prescribes, and the last one is the end of a text. -/
def Proper : TokenStream → Prop
  | .finish last => last.isEnd = true
  | .broken _ => True
  | .token first rest => first.lexeme.Valid ∧ rest.Proper

@[simp] theorem prepend_nil (s : TokenStream) : prepend [] s = s := rfl

@[simp] theorem prepend_cons (t : Token) (ts : List Token) (s : TokenStream) :
    prepend (t :: ts) s = .token t (prepend ts s) := rfl

theorem prepend_append (ts us : List Token) (s : TokenStream) :
    prepend (ts ++ us) s = prepend ts (prepend us s) := by
  induction ts with
  | nil => rfl
  | cons t ts ih => rw [List.cons_append, prepend_cons, prepend_cons, ih]

theorem prepend_ne_broken {s : TokenStream} (hs : ∀ e, s ≠ .broken e) (ts : List Token)
    (e : LexError) : prepend ts s ≠ .broken e := by
  cases ts with
  | nil => exact hs e
  | cons t ts => exact fun h => by cases h

theorem prepend_finish_ne_broken (ts : List Token) (last : Token) (e : LexError) :
    prepend ts (.finish last) ≠ .broken e :=
  prepend_ne_broken (fun _ h => by cases h) ts e

@[simp] theorem length_prepend (ts : List Token) (s : TokenStream) :
    (prepend ts s).length = ts.length + s.length := by
  induction ts with
  | nil => simp
  | cons t ts ih => simp only [prepend_cons, length, ih, List.length_cons]; omega

theorem toList_prepend (ts : List Token) (s : TokenStream) :
    (prepend ts s).toList = s.toList.map (ts ++ ·) := by
  induction ts with
  | nil => cases h : s.toList <;> exact h
  | cons t ts ih =>
    rw [prepend_cons, toList, ih]
    cases s.toList <;> rfl

theorem toList_prepend_finish (ts : List Token) (last : Token) :
    (prepend ts (.finish last)).toList = .ok (ts ++ [last]) := toList_prepend ts (.finish last)

theorem holds_prepend {t : Token} {ts : List Token} {s : TokenStream} :
    (prepend ts s).Holds t ↔ t ∈ ts ∨ s.Holds t := by
  induction ts with
  | nil => simp
  | cons u ts ih => rw [prepend_cons, Holds, ih, List.mem_cons, or_assoc]

theorem proper_prepend {ts : List Token} {s : TokenStream} :
    (prepend ts s).Proper ↔ (∀ t ∈ ts, t.lexeme.Valid) ∧ s.Proper := by
  induction ts with
  | nil => simp
  | cons t ts ih => simp [Proper, ih, and_assoc]

theorem proper_ofChars (limit offset : Nat) (cs : List Char) :
    (ofChars limit offset cs).Proper := by
  induction limit generalizing offset cs with
  | zero => rfl
  | succ limit ih =>
    rw [ofChars]
    cases h : scan offset cs with
    | error e => trivial
    | ok r =>
      obtain ⟨t, rest⟩ := r
      cases he : t.isEnd with
      | true => simp only [he]; exact he
      | false =>
        obtain ⟨-, -, -, -, -, hv, -⟩ := scan_resume h he
        simp only [he]
        exact ⟨hv, ih _ _⟩

theorem proper_ofSource (s : Source) : (ofSource s).Proper := proper_ofChars _ _ _

end TokenStream

/-! ### Runs of tokens -/

/-- Tokens, none of them the end, are read one after the other from a text at an offset; what is
left is a text at an offset. -/
inductive Scans : Nat → List Char → List Token → Nat → List Char → Prop where
  | nil (offset : Nat) (cs : List Char) : Scans offset cs [] offset cs
  | cons {offset offset' : Nat} {cs rest rest' : List Char} {t : Token} {ts : List Token}
      (h : scan offset cs = .ok (t, rest)) (he : t.isEnd = false)
      (hs : Scans t.span.stop rest ts offset' rest') : Scans offset cs (t :: ts) offset' rest'

section Scans
variable {offset offset' offset'' : Nat} {cs rest rest' : List Char} {ts us : List Token}

theorem Scans.append (h : Scans offset cs ts offset' rest)
    (h' : Scans offset' rest us offset'' rest') : Scans offset cs (ts ++ us) offset'' rest' := by
  induction h with
  | nil => exact h'
  | cons h he _ ih => exact .cons h he (ih h')

/-- **The tokens at the start of a text are read again whatever stands behind them, as long as the
last of them precedes it.** -/
theorem Scans.resume (h : Scans offset cs ts offset' rest) :
    ∃ u, cs = u ++ rest ∧ offset' = offset + byteLength u ∧ (u = [] ↔ ts = []) ∧
      (∀ t ∈ ts.getLast?, t.Precedes rest) ∧
      ∀ k, (∀ t ∈ ts.getLast?, t.Precedes k) → Scans offset (u ++ k) ts offset' k := by
  induction h with
  | nil => exact ⟨[], rfl, rfl, by simp, by simp, fun k _ => .nil _ k⟩
  | @cons offset offset' cs rest rest' t ts h he hs ih =>
    obtain ⟨u, rfl, rfl, hu, hl, hk⟩ := ih
    obtain ⟨gap, lex, rfl, hlex, hspan, -, hp, hagain, -⟩ := scan_resume h he
    refine ⟨gap ++ lex ++ u, by simp, by rw [hspan]; simp; omega, by simp [hlex], ?_,
      fun k hlast => ?_⟩
    · cases ts with
      | nil =>
        obtain rfl := hu.mpr rfl
        simpa using hp
      | cons v ts => simpa [List.getLast?_cons_cons] using hl
    · -- the first token still precedes what stands behind it
      have hp' : t.Precedes (u ++ k) := by
        cases ts with
        | nil =>
          obtain rfl := hu.mpr rfl
          exact hlast t rfl
        | cons v ts =>
          obtain ⟨c, cs, rfl⟩ := List.exists_cons_of_ne_nil (by simp [hu] : u ≠ [])
          exact hp.of_head rfl
      rw [List.append_assoc]
      exact .cons (hagain _ hp') he (hk k fun v hv => hlast v (by
        cases ts with
        | nil => simp at hv
        | cons w ts => simpa [List.getLast?_cons_cons] using hv))

/-- The tokens of a run lie within it, one behind the other. -/
theorem Scans.spans (h : Scans offset cs ts offset' rest) :
    offset ≤ offset' ∧
      (∀ t ∈ ts, offset ≤ t.span.start ∧ t.span.start < t.span.stop ∧ t.span.stop ≤ offset') ∧
      ts.Pairwise fun t u => t.span.stop ≤ u.span.start := by
  induction h with
  | nil => simp
  | @cons offset offset' cs rest rest' t ts h he hs ih =>
    obtain ⟨gap, lex, rfl, hlex, hspan, -⟩ := scan_resume h he
    obtain ⟨hle, hin, hpair⟩ := ih
    have hpos : 0 < byteLength lex := byteLength_pos hlex
    have hstart : t.span.start = offset + byteLength gap := by rw [hspan]
    have hstop : t.span.stop = offset + byteLength gap + byteLength lex := by rw [hspan]
    refine ⟨by omega, ?_, List.pairwise_cons.mpr ⟨fun u hu => (hin u hu).1, hpair⟩⟩
    intro u hu
    rcases List.mem_cons.mp hu with rfl | hu
    · omega
    · have := hin u hu
      omega

/-- Behind some tokens of a text stands the rest of it. -/
theorem Scans.textFrom {s : Source} (h : Scans offset cs ts offset' rest)
    (hs : s.TextFrom offset cs) : s.TextFrom offset' rest := by
  obtain ⟨u, rfl, rfl, -⟩ := h.resume
  exact hs.append

theorem Scans.valid (h : Scans offset cs ts offset' rest) : ∀ t ∈ ts, t.lexeme.Valid := by
  induction h with
  | nil => simp
  | cons h he _ ih =>
    obtain ⟨-, -, -, -, -, hv, -⟩ := scan_resume h he
    simpa using ⟨hv, ih⟩

/-! ### Streams and runs -/

theorem length_rest_lt {t : Token} (h : scan offset cs = .ok (t, rest)) (he : t.isEnd = false) :
    rest.length < cs.length := by
  obtain ⟨gap, lex, rfl, hlex, -⟩ := scan_resume h he
  have := List.length_pos_iff.mpr hlex
  simp
  omega

theorem Scans.ofChars (h : Scans offset cs ts offset' rest) {limit : Nat}
    (hl : cs.length < limit) :
    ∃ limit', rest.length < limit' ∧
      TokenStream.ofChars limit offset cs = .prepend ts (.ofChars limit' offset' rest) := by
  induction h generalizing limit with
  | nil => exact ⟨limit, hl, rfl⟩
  | @cons offset offset' cs rest rest' t ts h he hs ih =>
    obtain ⟨limit, rfl⟩ : ∃ n, limit = n + 1 := ⟨limit - 1, by omega⟩
    have := length_rest_lt h he
    obtain ⟨limit', hl', hrest⟩ := ih (show rest.length < limit by omega)
    refine ⟨limit', hl', ?_⟩
    rw [TokenStream.ofChars, h]
    simp only [he, TokenStream.prepend_cons, ← hrest]
    rfl

theorem scans_of_ofChars {limit : Nat} {s : TokenStream} (hl : cs.length < limit)
    (h : TokenStream.ofChars limit offset cs = .prepend ts s) :
    ∃ offset' rest limit', Scans offset cs ts offset' rest ∧ rest.length < limit' ∧
      s = .ofChars limit' offset' rest := by
  induction ts generalizing limit offset cs with
  | nil => exact ⟨offset, cs, limit, .nil _ _, hl, h.symm⟩
  | cons t ts ih =>
    obtain ⟨limit, rfl⟩ : ∃ n, limit = n + 1 := ⟨limit - 1, by omega⟩
    rw [TokenStream.ofChars] at h
    split at h
    · cases h
    · next u rest hscan =>
      cases he : u.isEnd with
      | true => simp [he] at h
      | false =>
        simp only [he, TokenStream.prepend_cons] at h
        injection h with h1 h2
        subst h1
        have := length_rest_lt hscan he
        obtain ⟨offset', rest', limit', hs, hl', rfl⟩ := ih (show rest.length < limit by omega) h2
        exact ⟨offset', rest', limit', .cons hscan he hs, hl', rfl⟩

/-- The first token is read from the start of the text. -/
theorem scan_of_head? {limit : Nat} {t : Token} (hl : cs.length < limit)
    (h : (TokenStream.ofChars limit offset cs).head? = some t) :
    ∃ rest, scan offset cs = .ok (t, rest) := by
  obtain ⟨limit, rfl⟩ : ∃ n, limit = n + 1 := ⟨limit - 1, by omega⟩
  rw [TokenStream.ofChars] at h
  split at h
  · cases h
  · next u rest hscan =>
    cases he : u.isEnd <;> simp only [he] at h <;> cases h <;> exact ⟨rest, hscan⟩

/-- A token of a text is one of the tokens read before some place, or the one read there. -/
theorem scans_of_holds {limit : Nat} {t : Token} (hl : cs.length < limit)
    (h : (TokenStream.ofChars limit offset cs).Holds t) :
    ∃ ts offset' rest rest', Scans offset cs ts offset' rest ∧ scan offset' rest = .ok (t, rest') := by
  induction limit generalizing offset cs with
  | zero => omega
  | succ limit ih =>
    rw [TokenStream.ofChars] at h
    split at h
    · cases h
    · next u rest hscan =>
      cases he : u.isEnd with
      | true =>
        simp only [he, if_true] at h
        cases h
        exact ⟨[], offset, cs, rest, .nil _ _, hscan⟩
      | false =>
        simp only [he, Bool.false_eq_true, if_false] at h
        rcases h with rfl | h
        · exact ⟨[], offset, cs, rest, .nil _ _, hscan⟩
        · have := length_rest_lt hscan he
          obtain ⟨ts, offset', rest', rest'', hs, ht⟩ := ih (by omega) h
          exact ⟨u :: ts, offset', rest', rest'', .cons hscan he hs, ht⟩

/-- A token that starts where the first token of a text does is the first token. -/
theorem head?_of_holds {limit : Nat} {t : Token} (hl : cs.length < limit)
    (hfirst : ∀ u rest, scan offset cs = .ok (u, rest) →
      u.isEnd = false ∧ u.span.start = t.span.start)
    (h : (TokenStream.ofChars limit offset cs).Holds t) :
    (TokenStream.ofChars limit offset cs).head? = some t := by
  obtain ⟨ts, offset', rest, rest', hs, ht⟩ := scans_of_holds hl h
  cases ts with
  | nil =>
    cases hs
    obtain ⟨limit, rfl⟩ : ∃ n, limit = n + 1 := ⟨limit - 1, by omega⟩
    simp [TokenStream.ofChars, ht, (hfirst _ _ ht).1, TokenStream.head?]
  | cons u ts =>
    obtain ⟨gap, cs', -, hstart, -⟩ := scan_break ht
    have hu := hs.spans.2.1 u (by simp)
    cases hs with
    | cons hscan =>
      have := (hfirst _ _ hscan).2
      omega

end Scans

/-! ### Texts as a whole -/

/-- A text at an offset is read as tokens and, behind them, the end. -/
def Tokenizes (offset : Nat) (cs : List Char) (ts : List Token) (last : Token) : Prop :=
  ∃ offset' rest, Scans offset cs ts offset' rest ∧ scan offset' rest = .ok (last, []) ∧
    last.isEnd = true

section Tokenizes
variable {offset offset' : Nat} {cs cs' rest : List Char} {t last : Token} {ts : List Token}

theorem Tokenizes.cons (h : scan offset cs = .ok (t, rest)) (he : t.isEnd = false)
    (hs : Tokenizes t.span.stop rest ts last) : Tokenizes offset cs (t :: ts) last := by
  obtain ⟨offset', rest', hs, hend⟩ := hs
  exact ⟨offset', rest', .cons h he hs, hend⟩

/-- Only the first token depends on the start of the text. -/
theorem Tokenizes.of_scan_eq (h : Tokenizes offset' cs' ts last)
    (he : scan offset cs = scan offset' cs') : Tokenizes offset cs ts last := by
  obtain ⟨offset'', rest, hs, hend⟩ := h
  cases hs with
  | nil => exact ⟨offset, cs, .nil _ _, by rw [he]; exact hend⟩
  | cons h ht hs => exact ⟨offset'', rest, .cons (he.trans h) ht hs, hend⟩

theorem Tokenizes.ofSource {s : Source} (h : Tokenizes 0 s.chars ts last) :
    TokenStream.ofSource s = .prepend ts (.finish last) := by
  obtain ⟨offset', rest, hs, hlast, hend⟩ := h
  obtain ⟨limit, hl, hstream⟩ := hs.ofChars (Nat.lt_succ_self _)
  obtain ⟨limit, rfl⟩ : ∃ n, limit = n + 1 := ⟨limit - 1, by omega⟩
  rw [TokenStream.ofSource, hstream, TokenStream.ofChars, hlast]
  simp [hend]

end Tokenizes

end QueryDocs
