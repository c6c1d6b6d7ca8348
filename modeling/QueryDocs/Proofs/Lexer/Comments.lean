import QueryDocs.Proofs.Lexer.Trivia
import QueryDocs.Proofs.Tokens.Comments
import QueryDocs.Token.Comments

/-! # Comments read from bytes

The second look at a gap between tokens finds the comments that are passed over there
(`IsTrivia.gapComments`): a blank is no number sign, and the line of a comment ends within the gap or with
it. So the comments that are read before the tokens of a text are those of the text
(`Remarks.commentsBefore`), and nothing that is cut from the text is missing. -/

namespace QueryDocs

open QueryDocs.Text
open Lexer (Halt)

section Bytes
variable {s : Source} {n : Nat} {c : Char} {cs gap rest text : List Char}

theorem Source.TextFrom.tail (h : s.TextFrom n (c :: cs)) : s.TextFrom (n + c.utf8Size) cs :=
  @Source.TextFrom.append s n [c] cs h

theorem Source.TextFrom.bytesBetween (h : s.TextFrom n (gap ++ rest)) :
    s.bytesBetween n (n + byteLength gap) = .ok (view gap) := by
  have hroom : n ≤ n + byteLength gap ∧ n + byteLength gap ≤ s.bytes.length := by
    rw [h.length_bytes, byteLength_append]
    omega
  rw [Source.bytesBetween, if_pos hroom, Nat.add_sub_cancel_left, h.drop_bytes, encode_append,
    ← length_encode, List.take_left]
  rfl

/-- A character that is no number sign has no byte that is one. -/
theorem findIdx?_view (hc : c ≠ '#') (cs : List Char) :
    (view (c :: cs)).findIdx? (· == '#') = ((view cs).findIdx? (· == '#')).map (· + c.utf8Size) := by
  have hnone : (view [c]).findIdx? (· == '#') = none := by
    rw [List.findIdx?_eq_none_iff]
    intro v hv
    rw [← Bool.not_eq_true, beq_iff_eq]
    rintro rfl
    rcases mem_view hv with hv | hv
    · exact hc (List.mem_singleton.mp hv).symm
    · exact absurd hv (by decide)
  rw [view_cons, List.findIdx?_append, hnone, Option.none_or, length_view, byteLength_cons]
  rfl

/-! ### Comments of a gap -/

theorem Source.TextFrom.gapComments_nil (h : s.TextFrom n rest) (k : Nat) :
    s.gapComments n (k + 1) n = .ok [] := by
  have hbytes : s.bytesBetween n n = .ok [] := @Source.TextFrom.bytesBetween s n [] rest h
  rw [gapComments, hbytes]
  rfl

/-- The search for a comment goes on behind a character that is no number sign. -/
theorem Source.TextFrom.gapComments_pass (h : s.TextFrom n (c :: gap ++ rest)) (hc : c ≠ '#') (k : Nat) :
    s.gapComments (n + byteLength (c :: gap)) k n =
      s.gapComments (n + c.utf8Size + byteLength gap) k (n + c.utf8Size) := by
  have hstop : n + byteLength (c :: gap) = n + c.utf8Size + byteLength gap := by
    rw [byteLength_cons, Nat.add_assoc]
  have hmoved : s.TextFrom (n + c.utf8Size) (gap ++ rest) := h.tail
  cases k with
  | zero => rfl
  | succ k =>
    rw [gapComments, gapComments, h.bytesBetween, hmoved.bytesBetween, hstop]
    simp only [bind, Except.bind, findIdx?_view hc]
    cases (view gap).findIdx? (· == '#') with
    | none => rfl
    | some i =>
      have hstart : n + (i + c.utf8Size) = n + c.utf8Size + i := by omega
      simp only [Option.map_some, hstart]

/-- A number sign opens a comment, which is cut from the text up to a line end or the end of the gap. -/
theorem Source.TextFrom.gapComments_comment (h : s.TextFrom n ('#' :: text ++ gap ++ rest))
    (htext : '\r' ∉ text ∧ '\n' ∉ text) (hgap : Stops (fun c => !isLineEnd c) gap) (k : Nat) :
    s.gapComments (n + byteLength ('#' :: text ++ gap)) (k + 1) n =
      (s.gapComments (n + byteLength ('#' :: text ++ gap)) k (n + byteLength ('#' :: text))).map
        (commentAt n text :: ·) := by
  have hfirst : (view ('#' :: text ++ gap)).findIdx? (· == '#') = some 0 := by
    rw [List.cons_append, view_cons, view_ascii (by decide)]
    rfl
  have hsign : byteLength ('#' :: text) = 1 + byteLength text := rfl
  have htextFrom : s.TextFrom (n + 1) (text ++ (gap ++ rest)) := by
    rw [List.append_assoc] at h
    exact h.tail
  have hslice : s.slice? ⟨n + 1, n + byteLength ('#' :: text)⟩ = some (String.ofList text) := by
    rw [hsign, ← Nat.add_assoc]
    exact htextFrom.slice
  rw [gapComments, h.bytesBetween]
  simp only [bind, Except.bind, hfirst, Nat.add_zero, h.bytesBetween, Lexer.takeWhile_comment htext hgap,
    length_view, hslice]
  rw [commentAt, Nat.add_assoc n 1, ← hsign]
  cases s.gapComments (n + byteLength ('#' :: text ++ gap)) k (n + byteLength ('#' :: text)) <;> rfl

/-- **The second look at a gap finds the comments that are passed over there.** -/
theorem IsGap.gapComments {last : Bool} {k : Nat} (hgap : IsGap last gap) (h : s.TextFrom n (gap ++ rest))
    (hk : byteLength gap < k) :
    s.gapComments (n + byteLength gap) k n = .ok (triviaComments none n gap) := by
  induction hgap generalizing n k with
  | nil =>
    obtain ⟨k, rfl⟩ := Nat.exists_eq_succ_of_ne_zero (by omega : k ≠ 0)
    exact h.gapComments_nil k
  | @blank c gap hc hgap ih =>
    have hhash : c ≠ '#' := by
      rintro rfl
      simp at hc
    rw [byteLength_cons] at hk
    rw [h.gapComments_pass hhash, triviaComments_blank hc]
    exact ih h.tail (by omega)
  | @comment text c gap htext hc hgap ih =>
    obtain ⟨k, rfl⟩ := Nat.exists_eq_succ_of_ne_zero (by omega : k ≠ 0)
    have hhash : c ≠ '#' := by rcases hc with rfl | rfl <;> decide
    have hstop : Stops (fun c => !isLineEnd c) (c :: gap) := by simp [isLineEnd_iff.mpr hc]
    have hcomment : s.TextFrom n ('#' :: text ++ (c :: gap) ++ rest) := h
    have hbehind : s.TextFrom (n + byteLength ('#' :: text)) (c :: gap ++ rest) := by
      rw [List.append_assoc] at hcomment
      exact hcomment.append
    have hsize : n + byteLength ('#' :: text ++ c :: gap) =
        n + byteLength ('#' :: text) + byteLength (c :: gap) := by
      rw [byteLength_append, Nat.add_assoc]
    have hroom : byteLength gap < k := by
      rw [byteLength_cons, byteLength_append, byteLength_cons, utf8Size_hash] at hk
      omega
    have hend : n + byteLength ('#' :: text) + c.utf8Size = n + 1 + byteLength text + 1 := by
      rw [byteLength_cons, utf8Size_hash, utf8Size_lineEnd hc, Nat.add_assoc n 1]
    have hafter : s.TextFrom (n + 1 + byteLength text + 1) (gap ++ rest) := by
      rw [← hend]
      exact hbehind.tail
    rw [triviaComments_comment htext hc, ← List.cons_append, hcomment.gapComments_comment htext hstop,
      hsize, hbehind.gapComments_pass hhash, hend, ih hafter hroom]
    rfl
  | @openComment text hlast htext =>
    obtain ⟨k, rfl⟩ : ∃ i, k = i + 2 := by
      rw [byteLength_cons, utf8Size_hash] at hk
      exact ⟨k - 2, by omega⟩
    have hcomment : s.TextFrom n ('#' :: text ++ [] ++ rest) := by rwa [List.append_nil]
    have hstep := hcomment.gapComments_comment htext (stops_nil _) (k + 1)
    rw [List.append_nil] at hstep
    rw [triviaComments_openComment htext, hstep, h.append.gapComments_nil]
    rfl

theorem IsTrivia.gapComments {last : Bool} {k : Nat} (hgap : IsTrivia (n == 0) last gap)
    (h : s.TextFrom n (gap ++ rest)) (hk : byteLength gap < k) :
    s.gapComments (n + byteLength gap) k n = .ok (triviaComments none n gap) := by
  rcases hgap with hgap | ⟨hn, gap, rfl, hgap⟩
  · exact hgap.gapComments h hk
  · obtain rfl : n = 0 := by simpa using hn
    rw [byteLength_cons] at hk
    rw [h.gapComments_pass (by decide), triviaComments_mark, Nat.zero_add]
    exact hgap.gapComments (by simpa using h.tail) (by omega)

end Bytes

/-! ### Comments of a text -/

/-- **The comments that are read before the tokens of a text are those of the text.** -/
theorem Remarks.commentsBefore {s : Source} {offset : Nat} {cs : List Char} {ts us : List Token}
    (h : Remarks offset cs ts us) (hs : s.TextFrom offset cs) :
    s.commentsBefore offset (ts ++ [.endOfText s.size]) = .ok us := by
  have hroom : ∀ {n gap rest}, s.TextFrom n (gap ++ rest) → byteLength gap < s.bytes.length + 1 :=
    fun h => by
      rw [h.length_bytes, byteLength_append]
      omega
  induction h with
  | @finish offset cs last h he =>
    have hwhole : s.TextFrom offset (cs ++ []) := by rwa [List.append_nil]
    have hgap := (scan_trivia h he).gapComments hwhole (hroom hwhole)
    rw [← hs.size_eq] at hgap
    rw [List.nil_append, Source.commentsBefore, Token.endOfText]
    simp only [Span.empty, hgap, bind, Except.bind]
    rw [Source.commentsBefore]
    simp only [pure, Except.pure, List.append_nil]
  | @token offset cs rest t ts us h he _ ih =>
    have hbehind : s.TextFrom t.span.stop rest := (Scans.cons h he (.nil _ _)).textFrom hs
    obtain ⟨gap, c, lex, rfl, hgap, hspan, -, hcomments⟩ := comments_of_scan h he
    have hread := hgap.gapComments hs (hroom hs)
    have hstart : t.span.start = offset + byteLength gap := by rw [hspan]
    rw [List.cons_append, Source.commentsBefore, hstart, hread, hcomments]
    simp only [bind, Except.bind, ih hbehind]
    rfl

end QueryDocs
