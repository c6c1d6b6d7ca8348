import QueryDocs.Parser.Basic
import QueryDocs.Proofs.OnDemand
import QueryDocs.Proofs.Pulling

/-! # Tokens that a parser takes

A parser goes on by taking its current token and in no other way. Behind a token that is not the end the
text gives another one further on, so only so many tokens can be taken from any place
(`Parser.exists_within`). That bound is what the rules of a parser come to an end by. -/

namespace QueryDocs

open QueryDocs.Text

/-! ### The token behind a token -/

section Next
variable {s : Source} {p t : Token}

/-- A token that is not the end lies in the text and ends behind the one before it. -/
theorem Source.stop_of_next (h : s.next p = .ok t) (he : t.isEnd = false) :
    p.span.stop < t.span.stop ∧ t.span.stop ≤ s.size := by
  rw [Source.next] at h
  split at h
  · cases h
    cases he
  · split at h
    · next rest hland =>
      obtain ⟨⟨_, behind⟩, hscan, rfl⟩ := map_eq_ok.mp h
      have hfrom : s.TextFrom p.span.stop rest := land_eq_boundary hland
      obtain ⟨gap, lex, -, hlex, hspan, -⟩ := scan_resume hscan he
      have hbehind : s.TextFrom t.span.stop behind := (Scans.cons hscan he (.nil _ _)).textFrom hfrom
      have hstop : t.span.stop = p.span.stop + byteLength gap + byteLength lex := by rw [hspan]
      have hpos := byteLength_pos hlex
      have hsize : t.span.stop ≤ s.size := Source.IsBoundary.le_size ⟨behind, hbehind⟩
      exact ⟨by omega, hsize⟩
    · cases h
    · cases h
      cases he

/-- Behind each token of a source there are others on demand. -/
theorem TokenStream.exists_follows (s : Source) (t : Token) :
    ∃ ahead : TokenStream, ahead.Follows s t := by
  have hend : ∀ n, s.next (.endOfText n) = .ok (.endOfText n) := fun n => rfl
  cases he : t.isEnd with
  | true =>
    have hnext : s.next t = .ok (.endOfText t.span.stop) := by rw [Source.next, if_pos he]
    exact ⟨.finish (.endOfText t.span.stop), hnext, hend _⟩
  | false =>
    have hne : ¬ t.isEnd = true := by simp [he]
    cases hland : land t.span.stop s.chars with
    | boundary rest =>
      exact ⟨_, follows_ofChars (Nat.lt_succ_self rest.length) (land_eq_boundary hland) he⟩
    | inside =>
      have hnext : s.next t = .error ⟨.unexpectedCharacter '\ufffd', t.span.stop⟩ := by
        rw [Source.next, if_neg hne, hland]
      exact ⟨.broken _, hnext⟩
    | beyond =>
      have hnext : s.next t = .ok (.endOfText t.span.stop) := by
        rw [Source.next, if_neg hne, hland]
      exact ⟨.finish (.endOfText t.span.stop), hnext, hend _⟩

end Next

namespace Parser

/-! ### Taking tokens -/

/-- Tokens are taken one after the other, none of them the end. -/
inductive Takes : Parser → List Token → Parser → Prop where
  | nil (p : Parser) : Takes p [] p
  | cons {p p' q : Parser} {ts : List Token} (he : p.current.isEnd = false)
      (h : advance p = some (.ok (), p')) (hs : Takes p' ts q) : Takes p (p.current :: ts) q

section Takes
variable {p p' q r : Parser} {t : Token} {e : LexError} {ts us : List Token} {n m : Nat}

/-- A parser that has asked for a token in vain. -/
def refused (p : Parser) : Parser := { p with toFeed := (p.next p.current).2 }

theorem get_bind {β : Type} (k : Parser → Action β) (p : Parser) : (get >>= k) p = k p p := rfl

theorem advance_of_ok (h : p.source.next p.current = .ok t) :
    advance p = some (.ok (), ⟨(p.next p.current).2, t, p.current.span.stop⟩) := by
  have hnext : p.next p.current = (.ok t, (p.next p.current).2) := by rw [Feed.next, h]
  rw [advance, get_bind, hnext]
  rfl

theorem advance_of_error (h : p.source.next p.current = .error e) :
    advance p = some (.error (.lexical e), p.refused) := by
  have hnext : p.next p.current = (.error e, (p.next p.current).2) := by rw [Feed.next, h]
  rw [advance, get_bind, hnext]
  rfl

theorem advance_eq_ok (h : advance p = some (.ok (), q)) :
    ∃ t, p.source.next p.current = .ok t ∧ q = ⟨(p.next p.current).2, t, p.current.span.stop⟩ := by
  cases hnext : p.source.next p.current with
  | error e =>
    rw [advance_of_error hnext] at h
    cases h
  | ok t =>
    rw [advance_of_ok hnext] at h
    cases h
    exact ⟨t, rfl, rfl⟩

theorem Takes.append (h : p.Takes ts q) (h' : q.Takes us r) : p.Takes (ts ++ us) r := by
  induction h with
  | nil => exact h'
  | cons he h _ ih => exact .cons he h (ih h')

theorem Takes.isEnd (h : p.Takes ts q) : ∀ t ∈ ts, t.isEnd = false := by
  induction h with
  | nil => simp
  | cons he _ _ ih => exact List.forall_mem_cons.mpr ⟨he, ih⟩

/-- A parser keeps its source, and asks for a token behind each one that it takes. -/
theorem Takes.feed (h : p.Takes ts q) : q.source = p.source ∧ q.asked = p.asked ++ ts := by
  induction h with
  | nil p => exact ⟨rfl, (List.append_nil p.asked).symm⟩
  | @cons p p' q ts he h hs ih =>
    obtain ⟨t, -, rfl⟩ := advance_eq_ok h
    obtain ⟨hsource, hasked⟩ := ih
    have hfirst : (p.next p.current).2.asked = p.asked ++ [p.current] := rfl
    exact ⟨hsource, by rw [hasked, hfirst, List.append_assoc, List.singleton_append]⟩

/-- A parser never moves back. -/
theorem Takes.stop_le (h : p.Takes ts q) : q = p ∨ p.current.span.stop ≤ q.current.span.start := by
  induction h with
  | nil p => exact Or.inl rfl
  | @cons p p' q ts he h hs ih =>
    obtain ⟨t, hnext, rfl⟩ := advance_eq_ok h
    obtain ⟨hspan, hstart, -⟩ := Source.span_of_next hnext
    refine Or.inr ?_
    rcases ih with rfl | hle
    · exact hstart
    · exact hstart.trans (hspan.trans hle)

/-! ### How many tokens there are -/

/-- Fewer tokens can be taken from here on than a bound says. -/
def Within (n : Nat) (p : Parser) : Prop := ∀ ts q, p.Takes ts q → ts.length < n

theorem Within.pos (h : p.Within n) : 0 < n := h [] p (.nil p)

theorem Within.mono (h : p.Within n) (hnm : n ≤ m) : p.Within m :=
  fun ts q ht => (h ts q ht).trans_le hnm

theorem Within.takes (h : p.Within (n + m)) (ht : p.Takes ts q) (hm : m ≤ ts.length) :
    q.Within n := by
  intro us r hu
  have hlen := h _ _ (ht.append hu)
  rw [List.length_append] at hlen
  omega

/-- The tokens that can be taken lie one behind the other in the rest of the text. -/
theorem Takes.length_le (h : p.Takes ts q) :
    ts.length ≤ p.source.size - p.current.span.stop + 1 := by
  induction h with
  | nil => exact Nat.zero_le _
  | @cons p p' q ts he h hs ih =>
    obtain ⟨t, hnext, rfl⟩ := advance_eq_ok h
    cases ht : t.isEnd with
    | true =>
      cases hs with
      | nil => exact Nat.le_add_left _ _
      | cons ht' => cases ht.symm.trans ht'
    | false =>
      obtain ⟨hlt, hsize⟩ := Source.stop_of_next hnext ht
      have hrest : ts.length ≤ p.source.size - t.span.stop + 1 := ih
      rw [List.length_cons]
      omega

theorem exists_within (p : Parser) : ∃ n, p.Within n :=
  ⟨_, fun _ _ h => Nat.lt_succ_of_le h.length_le⟩

end Takes

/-! ### Runs -/

/-- A run of a parser with its answer: tokens have been taken, and at least some number of them if there is
a result. Without a result the run has failed at the token that it has come to, or it has asked in vain for
the one behind. -/
inductive Moves {α : Type} (n : Nat) (p : Parser) : Except ParseFault α × Parser → Prop where
  | ok {x : α} {ts : List Token} {q : Parser} (h : p.Takes ts q) (hn : n ≤ ts.length) :
      Moves n p (.ok x, q)
  | unexpected {e : Expectation} {ts : List Token} {q : Parser} (h : p.Takes ts q) :
      Moves n p (.error (.unexpected e q.current), q)
  | lexical {e : LexError} {ts : List Token} {q : Parser} (h : p.Takes ts q)
      (he : q.current.isEnd = false) (hq : q.source.next q.current = .error e) :
      Moves n p (.error (.lexical e), q.refused)

end Parser

end QueryDocs
