import QueryDocs.Proofs.Tokens.Gaps
import QueryDocs.Proofs.Tokens.Listing

/-! # The tokens of a text cover it

Nothing of a text is lost between its tokens, and no two of them overlap: what is not a part of a token
is trivia, and what a mark, a name or a number covers is its own spelling (`Source.tokens_cover`). -/

namespace QueryDocs

open QueryDocs.Text

/-- A token can be read from a text: a mark is spelled like this, a name or a number is this text, and a
string denotes some text. -/
def Token.Spells (t : Token) (text : String) : Prop :=
  match t.kind with
  | .name | .int | .float => t.value = some text
  | .string | .blockString => ∃ value, t.value = some value
  | k => t.value = none ∧ k.spelling? = some text

/-- Between the end of a token and the start of another one a text holds trivia alone. At offset zero the
text starts, and before its end it may have an open comment. -/
def Source.TriviaBetween (s : Source) (t u : Token) : Prop :=
  ∃ text, s.slice? ⟨t.span.stop, u.span.start⟩ = some text ∧
    IsTrivia (t.span.stop == 0) u.isEnd text.toList

/-- A text consists of some tokens, in their order, and trivia before, between and behind them. -/
structure Source.Consists (s : Source) (ts : List Token) : Prop where
  kind : ∀ t ∈ ts, t.kind ≠ .startOfText ∧ t.kind ≠ .endOfText ∧ t.kind ≠ .comment
  pos : ∀ t ∈ ts, t.span.start < t.span.stop
  ordered : (ts ++ [Token.endOfText s.size]).Pairwise fun t u => t.span.stop ≤ u.span.start
  boundaries : ∀ t ∈ ts ++ [Token.endOfText s.size],
    s.IsBoundary t.span.start ∧ s.IsBoundary t.span.stop
  trivia : (Token.startOfText :: (ts ++ [Token.endOfText s.size])).IsChain s.TriviaBetween
  texts : ∀ t ∈ ts, ∃ text, s.slice? t.span = some text ∧ t.Spells text

section Consists
variable {s : Source} {offset offset' : Nat} {cs rest lex : List Char} {ts : List Token}
  {t p last : Token}

theorem Lexeme.Written.spells (h : t.lexeme.Written lex) : t.Spells (String.ofList lex) := by
  obtain ⟨l, span, rfl⟩ : ∃ (l : Lexeme) (span : Span), t = ⟨l.1, l.2, span⟩ :=
    ⟨t.lexeme, t.span, rfl⟩
  change l.Written lex at h
  cases h with
  | @mark c k h =>
    have hspelling := Token.Kind.spelling?_of_ofChar? h
    cases k <;> first | exact ⟨rfl, hspelling⟩ | cases hspelling
  | spread => exact ⟨rfl, rfl⟩
  | string => exact ⟨_, rfl⟩
  | blockString => exact ⟨_, rfl⟩
  | number => cases hf : Number.isFloat lex <;> simp [Token.Spells]
  | name => exact rfl

theorem Lexeme.Valid.kind_ne (h : t.lexeme.Valid) :
    t.kind ≠ .startOfText ∧ t.kind ≠ .endOfText ∧ t.kind ≠ .comment := by
  obtain ⟨kind, value, span⟩ := t
  change Lexeme.Valid (kind, value) at h
  refine ⟨?_, h.ne_end, ?_⟩ <;> rintro rfl <;> cases value <;> cases h

theorem Scans.trivia (h : Scans offset cs ts offset' rest) (hlast : scan offset' rest = .ok (last, []))
    (hend : last.isEnd = true) (hs : s.TextFrom offset cs) (hp : p.span.stop = offset) :
    (p :: (ts ++ [last])).IsChain s.TriviaBetween := by
  induction h generalizing p with
  | @nil offset cs =>
    subst hp
    obtain ⟨rfl, -⟩ := scan_of_end hlast hend
    have hslice := Source.TextFrom.slice (by rwa [List.append_nil] : s.TextFrom _ (cs ++ []))
    refine .cons_cons ⟨_, hslice, ?_⟩ (.singleton _)
    rw [String.toList_ofList]
    exact scan_trivia hlast hend
  | @cons offset offset' cs rest rest' t ts h he _ ih =>
    subst hp
    have hbehind : s.TextFrom t.span.stop rest := (Scans.cons h he (.nil _ _)).textFrom hs
    obtain ⟨gap, lex, rfl, hgap, -, hspan, -⟩ := scan_written h he
    rw [List.append_assoc] at hs
    refine .cons_cons ⟨_, by rw [hspan]; exact hs.slice, ?_⟩ (ih hlast hbehind rfl)
    rw [he, String.toList_ofList]
    exact hgap

/-- **The tokens of a text cover it**: between them stands nothing but trivia. -/
theorem Source.tokens_cover (h : s.tokens = .ok ts) :
    ∃ us, ts = us ++ [.endOfText s.size] ∧ s.Consists us := by
  obtain ⟨us, rfl, offset, rest, hscans, hlast, hend⟩ := Source.tokens_eq_ok h
  obtain ⟨-, hin, hpairwise⟩ := hscans.spans
  have hsize : s.IsBoundary s.size := ⟨[], s.chars, (List.append_nil _).symm, rfl⟩
  have hle : offset ≤ s.size := Source.IsBoundary.le_size ⟨_, hscans.textFrom s.textFrom_zero⟩
  have htexts : ∀ t ∈ us, ∃ text, s.slice? t.span = some text ∧ t.Spells text := fun t ht => by
    obtain ⟨text, hslice, hw⟩ := hscans.exists_written s.textFrom_zero ht
    exact ⟨text, hslice, by simpa using hw.spells⟩
  refine ⟨us, rfl, fun t ht => (hscans.valid t ht).kind_ne, fun t ht => (hin t ht).2.1, ?_, ?_,
    hscans.trivia hlast hend s.textFrom_zero rfl, htexts⟩
  · refine List.pairwise_append.mpr ⟨hpairwise, List.pairwise_singleton _ _, fun t ht e he => ?_⟩
    rw [List.mem_singleton.mp he]
    exact (hin t ht).2.2.trans hle
  · intro t ht
    rcases List.mem_append.mp ht with ht | ht
    · obtain ⟨text, hslice, -⟩ := htexts t ht
      exact Source.boundaries_of_slice? hslice
    · rw [List.mem_singleton.mp ht]
      exact ⟨hsize, hsize⟩

/-- A byte-order mark and a comment before the first token, blanks, a comma and an open comment behind
the others. -/
theorem Source.tokens_cover_mark :
    Source.Consists ⟨"\ufeff#a\n\x7b \"b\", \x7d # c", none⟩
      [⟨.leftBrace, none, ⟨6, 7⟩⟩, ⟨.string, some "b", ⟨8, 11⟩⟩, ⟨.rightBrace, none, ⟨13, 14⟩⟩] := by
  have htokens : Source.tokens ⟨"\ufeff#a\n\x7b \"b\", \x7d # c", none⟩ =
      .ok [⟨.leftBrace, none, ⟨6, 7⟩⟩, ⟨.string, some "b", ⟨8, 11⟩⟩, ⟨.rightBrace, none, ⟨13, 14⟩⟩,
        .endOfText 18] := by decide +kernel
  obtain ⟨us, hus, hconsists⟩ := Source.tokens_cover htokens
  obtain rfl : _ = us := by simpa using congrArg List.dropLast hus
  exact hconsists

end Consists

end QueryDocs
