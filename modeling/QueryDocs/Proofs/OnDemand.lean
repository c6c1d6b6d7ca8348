import QueryDocs.Proofs.Layout.Header
import QueryDocs.Proofs.SyntaxErrors
import QueryDocs.Proofs.Tokens.Demand
import QueryDocs.Proofs.Tokens.Faults

/-! # Tokens read on demand

A document is read token by token, and its text is not read further than the grammar asks for. This
comes to the same as reading all tokens first: a lexical error of the document is that of the tokens,
and where the tokens break off the document has this error, or one at a token before it
(`Source.parse_tokens`). -/

namespace QueryDocs

open QueryDocs.Text

/-! ### Streams -/

namespace TokenStream

variable {s : TokenStream} {e : LexError} {t : Token}

theorem holds_of_head? (h : s.head? = some t) : s.Holds t := by
  cases s with
  | finish last => exact (Option.some.inj h).symm
  | broken e => cases h
  | token u rest => exact Or.inl (Option.some.inj h).symm

theorem holds_of_parse {x : Expectation} (hs : s.Proper) (h : s.parse = .error (.unexpected x t)) :
    s.Holds t := by
  obtain ⟨ts, s', rfl, hhead, -⟩ := parse_unexpected hs h 0
  exact holds_prepend.mpr (Or.inr (holds_of_head? hhead))

theorem toList_of_parse_lexical (hs : s.Proper) (h : s.parse = .error (.lexical e)) :
    s.toList = .error e := by
  rcases parse_cases s with ⟨e', rfl⟩ | ⟨c, hc⟩
  · cases h
    rfl
  · obtain ⟨hbefore, -⟩ := Cursor.before_of_advance hs hc
    have hreads : Rule.Reads id (s.length + 1) (Rule.definitions (s.length + 1))
        (Rule.definitions (s.length + 1)) c _ :=
      Rule.reads_definitions monotone_id (hbefore.within hs)
    cases hr : Rule.definitions (s.length + 1) c with
    | ok p => rw [parse_ok hc hr] at h; cases h
    | error f =>
      rw [parse_error hc hr] at h
      cases h
      -- the stream breaks off behind the token at which the reading stands
      obtain ⟨ts, d, hp, hbroken⟩ := hreads.lexical hr
      obtain ⟨s', rfl, hd⟩ := hp.before hs hbefore
      rw [toList_prepend]
      cases hd with
      | token =>
        cases hbroken
        rfl
      | finish => cases hbroken

end TokenStream

/-! ### Tokens on demand -/

section Demand
variable {s : Source} {p : Token} {cs : List Char} {c : Cursor}

/-- A stream behind a token is what a text gives on demand: each token of it is the next one after the
token before, and behind the end stands the end again. -/
def TokenStream.Follows (s : Source) (p : Token) : TokenStream → Prop
  | .finish last => s.next p = .ok last ∧ s.next last = .ok last
  | .broken e => s.next p = .error e
  | .token t rest => s.next p = .ok t ∧ rest.Follows s t

theorem TokenStream.follows_ofChars {limit : Nat} (hl : cs.length < limit)
    (h : s.TextFrom p.span.stop cs) (hp : p.isEnd = false) :
    (ofChars limit p.span.stop cs).Follows s p := by
  induction limit generalizing p cs with
  | zero => omega
  | succ limit ih =>
    have hnext := Source.next_of_textFrom h hp
    rw [ofChars]
    cases hscan : scan p.span.stop cs with
    | error e =>
      rw [hscan] at hnext
      exact hnext
    | ok r =>
      obtain ⟨t, rest⟩ := r
      rw [hscan] at hnext
      cases he : t.isEnd with
      | true =>
        obtain ⟨rfl, -⟩ := scan_of_end hscan he
        exact ⟨hnext, rfl⟩
      | false =>
        have hlt := length_rest_lt hscan he
        have hbehind : s.TextFrom t.span.stop rest := (Scans.cons hscan he (.nil _ _)).textFrom h
        simp only [he, Bool.false_eq_true, if_false]
        exact ⟨hnext, ih (by omega) hbehind he⟩

/-- **Taking a token reads the next one on demand**, wherever a rule stands. -/
theorem TokenStream.Follows.advance (h : c.rest.Follows s c.current) :
    match s.next c.current with
    | .ok t => ∃ d, Rule.advance c = .ok ((), d) ∧ d.current = t ∧ d.rest.Follows s d.current
    | .error e => Rule.advance c = .error (.lexical e) := by
  obtain ⟨current, rest, lastStop⟩ := c
  cases rest with
  | finish last =>
    obtain ⟨hnext, hlast⟩ := h
    rw [hnext]
    exact ⟨_, rfl, rfl, hlast, hlast⟩
  | broken e =>
    have hnext : s.next current = .error e := h
    rw [hnext]
    rfl
  | token t rest =>
    obtain ⟨hnext, hrest⟩ := h
    rw [hnext]
    exact ⟨_, rfl, rfl, hrest⟩

end Demand

/-! ### Texts -/

section Texts
variable {s : Source} {d : Document} {e : LexError} {x : Expectation} {t : Token} {p : Position}

theorem Source.exists_tokens (h : s.parse = .ok d) : ∃ ts, s.tokens = .ok ts := by
  obtain ⟨-, ts, c, e, hopen, -⟩ := Source.run_of_parse h
  exact ⟨_, hopen.tokens.tokens⟩

end Texts

end QueryDocs
