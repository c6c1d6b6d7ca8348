import QueryDocs.Proofs.Tokens.Gaps
import QueryDocs.Proofs.Tokens.Listing

/-! # Comments in gaps

The comments of a text stand in the gaps before, between and behind its tokens; `Remarks` tells tokens
and comments together. A comment in a gap is a number sign with the text up to the line end behind it
(`IsGap.exists_comment`), and the comments of a gap do not depend on what stands behind it, once its last
comment is closed (`IsGap.comments_append`). -/

namespace QueryDocs

open QueryDocs.Text

/-- The comment with a text whose number sign is at an offset. -/
def commentAt (offset : Nat) (text : List Char) : Token :=
  ⟨.comment, some (String.ofList text), ⟨offset, offset + 1 + byteLength text⟩⟩

/-- A text at an offset is read as some tokens up to its end, and the gaps hold some comments. -/
inductive Remarks : Nat → List Char → List Token → List Token → Prop where
  | finish {offset : Nat} {cs : List Char} {last : Token} (h : scan offset cs = .ok (last, []))
      (he : last.isEnd = true) : Remarks offset cs [] (triviaComments none offset cs)
  | token {offset : Nat} {cs rest : List Char} {t : Token} {ts us : List Token}
      (h : scan offset cs = .ok (t, rest)) (he : t.isEnd = false)
      (hs : Remarks t.span.stop rest ts us) :
      Remarks offset cs (t :: ts) (triviaComments none offset cs ++ us)

/-! ### Comments of a gap -/

section Gap
variable {last : Bool} {offset : Nat} {c : Char} {cs gap rest text : List Char} {t m : Token}

theorem triviaComments_pass (hc : c ≠ '#')
    (hpass : (isIgnored c || (c == byteOrderMark && offset == 0)) = true) (cs : List Char) :
    triviaComments none offset (c :: cs) = triviaComments none (offset + c.utf8Size) cs := by
  rw [triviaComments]
  rw [if_neg hc, if_pos hpass]

theorem triviaComments_blank (hc : c ∈ [' ', '\t', '\r', '\n', ',']) (offset : Nat) (cs : List Char) :
    triviaComments none offset (c :: cs) = triviaComments none (offset + c.utf8Size) cs := by
  refine triviaComments_pass ?_ (by rw [isIgnored_iff.mpr hc, Bool.true_or]) cs
  rintro rfl
  simp at hc

theorem triviaComments_of_ignored (h : ∀ c ∈ cs, isIgnored c = true) (offset : Nat) :
    triviaComments none offset cs = [] := by
  induction cs generalizing offset with
  | nil => rfl
  | cons c cs ih =>
    obtain ⟨hc, hcs⟩ := List.forall_mem_cons.mp h
    rw [triviaComments_blank (isIgnored_iff.mp hc), ih hcs]

theorem triviaComments_mark (cs : List Char) :
    triviaComments none 0 (byteOrderMark :: cs) = triviaComments none byteOrderMark.utf8Size cs := by
  rw [triviaComments_pass (by decide) (by decide), Nat.zero_add]

/-- Where a token starts there is no comment. -/
theorem triviaComments_of_start (hc : c ≠ '#') (hi : isIgnored c = false) (hb : c ≠ byteOrderMark)
    (offset : Nat) (cs : List Char) : triviaComments none offset (c :: cs) = [] := by
  rw [triviaComments]
  rw [if_neg hc, if_neg (by simp [hi, hb])]

/-- An open comment takes in the text up to a line end, or up to the end of the text. -/
theorem triviaComments_open (htext : '\r' ∉ text ∧ '\n' ∉ text) (start offset : Nat)
    (before : List Char) :
    (∀ c, c = '\r' ∨ c = '\n' → ∀ cs, triviaComments (some (start, before)) offset (text ++ c :: cs) =
      triviaComments.commentToken (offset + byteLength text) (start, text.reverse ++ before) ::
        triviaComments none (offset + byteLength text + 1) cs) ∧
    triviaComments (some (start, before)) offset text =
      [triviaComments.commentToken (offset + byteLength text) (start, text.reverse ++ before)] := by
  induction text generalizing offset before with
  | nil =>
    refine ⟨fun c hc cs => ?_, rfl⟩
    rw [List.nil_append, triviaComments]
    rw [if_pos (isLineEnd_iff.mpr hc)]
    rfl
  | cons d text ih =>
    have hd : isLineEnd d = false := isLineEnd_of_notMem htext d List.mem_cons_self
    obtain ⟨hclosed, hopen⟩ := ih ⟨fun h => htext.1 (List.mem_cons_of_mem d h),
      fun h => htext.2 (List.mem_cons_of_mem d h)⟩ (offset + d.utf8Size) (d :: before)
    have hstep : ∀ cs, triviaComments (some (start, before)) offset (d :: cs) =
        triviaComments (some (start, d :: before)) (offset + d.utf8Size) cs := fun cs => by
      rw [triviaComments]
      rw [if_neg (by rw [hd]; simp)]
    rw [byteLength_cons, ← Nat.add_assoc, List.reverse_cons, List.append_assoc]
    refine ⟨fun c hc cs => ?_, ?_⟩
    · rw [List.cons_append, hstep, hclosed c hc]
      rfl
    · rw [hstep, hopen]
      rfl

theorem triviaComments_hash (offset : Nat) (cs : List Char) :
    triviaComments none offset ('#' :: cs) = triviaComments (some (offset, [])) (offset + 1) cs := by
  rw [triviaComments]
  rw [if_pos rfl]

theorem commentToken_eq (offset : Nat) (text : List Char) :
    triviaComments.commentToken (offset + 1 + byteLength text) (offset, text.reverse ++ []) =
      commentAt offset text := by
  rw [triviaComments.commentToken, List.append_nil, List.reverse_reverse]
  rfl

theorem triviaComments_comment (htext : '\r' ∉ text ∧ '\n' ∉ text) (hc : c = '\r' ∨ c = '\n')
    (offset : Nat) (cs : List Char) :
    triviaComments none offset ('#' :: (text ++ c :: cs)) =
      commentAt offset text :: triviaComments none (offset + 1 + byteLength text + 1) cs := by
  rw [triviaComments_hash, (triviaComments_open htext offset (offset + 1) []).1 c hc, commentToken_eq]

theorem triviaComments_openComment (htext : '\r' ∉ text ∧ '\n' ∉ text) (offset : Nat) :
    triviaComments none offset ('#' :: text) = [commentAt offset text] := by
  rw [triviaComments_hash, (triviaComments_open htext offset (offset + 1) []).2, commentToken_eq]

theorem utf8Size_hash : ('#' : Char).utf8Size = 1 := by decide

theorem utf8Size_lineEnd (hc : c = '\r' ∨ c = '\n') : c.utf8Size = 1 := by
  rcases hc with rfl | rfl <;> decide

/-- The comments of a closed gap are there whatever stands behind it, and those behind it follow. -/
theorem IsGap.comments_append (h : IsGap false gap) (offset : Nat) (cs : List Char) :
    triviaComments none offset (gap ++ cs) =
      triviaComments none offset gap ++ triviaComments none (offset + byteLength gap) cs := by
  induction h generalizing offset with
  | nil => rfl
  | blank hc h ih =>
    rw [List.cons_append, triviaComments_blank hc, triviaComments_blank hc, ih, byteLength_cons,
      Nat.add_assoc]
  | @comment text c gap htext hc h ih =>
    have hlength : offset + 1 + byteLength text + 1 + byteLength gap =
        offset + byteLength ('#' :: (text ++ c :: gap)) := by
      simp only [byteLength_cons, byteLength_append, utf8Size_hash, utf8Size_lineEnd hc]
      omega
    rw [List.cons_append, List.append_assoc, List.cons_append, triviaComments_comment htext hc,
      triviaComments_comment htext hc, ih, hlength]
    rfl
  | openComment hlast => cases hlast

/-- **A comment of a gap is a number sign with the text behind it**, up to a line end or the end. -/
theorem IsGap.exists_comment (h : IsGap last gap) (hm : m ∈ triviaComments none offset gap) :
    ∃ before text behind, gap = before ++ '#' :: text ++ behind ∧ ('\r' ∉ text ∧ '\n' ∉ text) ∧
      m = commentAt (offset + byteLength before) text ∧
      (behind = [] ∧ last = true ∨ ∃ c cs, behind = c :: cs ∧ (c = '\r' ∨ c = '\n')) := by
  induction h generalizing offset with
  | nil => cases hm
  | @blank c gap hc h ih =>
    rw [triviaComments_blank hc] at hm
    obtain ⟨before, text, behind, rfl, htext, rfl, hbehind⟩ := ih hm
    exact ⟨c :: before, text, behind, rfl, htext, by rw [byteLength_cons, Nat.add_assoc], hbehind⟩
  | @comment text c gap htext hc h ih =>
    rw [triviaComments_comment htext hc] at hm
    rcases List.mem_cons.mp hm with rfl | hm
    · exact ⟨[], text, c :: gap, rfl, htext, rfl, Or.inr ⟨c, gap, rfl, hc⟩⟩
    · obtain ⟨before, text', behind, rfl, htext', rfl, hbehind⟩ := ih hm
      refine ⟨'#' :: (text ++ c :: before), text', behind, by simp, htext', ?_, hbehind⟩
      simp only [byteLength_cons, byteLength_append, utf8Size_hash, utf8Size_lineEnd hc]
      congr 1
      omega
  | @openComment text hlast htext =>
    rw [triviaComments_openComment htext] at hm
    rw [List.mem_singleton.mp hm]
    exact ⟨[], text, [], by simp, htext, rfl, Or.inl ⟨rfl, hlast⟩⟩

/-- The comments of a gap stand one behind another. -/
theorem IsGap.comments_ordered (h : IsGap last gap) (offset : Nat) :
    (triviaComments none offset gap).Pairwise fun m n => m.span.stop ≤ n.span.start := by
  induction h generalizing offset with
  | nil => exact .nil
  | blank hc h ih =>
    rw [triviaComments_blank hc]
    exact ih _
  | @comment text c gap htext hc h ih =>
    rw [triviaComments_comment htext hc]
    refine List.pairwise_cons.mpr ⟨fun m hm => ?_, ih _⟩
    obtain ⟨before, _, _, -, -, rfl, -⟩ := h.exists_comment hm
    simp only [commentAt]
    omega
  | openComment _ htext =>
    rw [triviaComments_openComment htext]
    exact List.pairwise_singleton _ _

theorem IsTrivia.comments_ordered (h : IsTrivia (offset == 0) last gap) :
    (triviaComments none offset gap).Pairwise fun m n => m.span.stop ≤ n.span.start := by
  rcases h with h | ⟨hoffset, gap, rfl, h⟩
  · exact h.comments_ordered offset
  · obtain rfl : offset = 0 := by simpa using hoffset
    rw [triviaComments_mark]
    exact h.comments_ordered _

/-- A comment in what stands before a token is one of the gap there. -/
theorem IsTrivia.exists_comment (h : IsTrivia (offset == 0) last gap)
    (hm : m ∈ triviaComments none offset gap) :
    ∃ before text behind, gap = before ++ '#' :: text ++ behind ∧ ('\r' ∉ text ∧ '\n' ∉ text) ∧
      m = commentAt (offset + byteLength before) text ∧
      (behind = [] ∧ last = true ∨ ∃ c cs, behind = c :: cs ∧ (c = '\r' ∨ c = '\n')) := by
  rcases h with h | ⟨hoffset, gap, rfl, h⟩
  · exact h.exists_comment hm
  · obtain rfl : offset = 0 := by simpa using hoffset
    rw [triviaComments_mark] at hm
    obtain ⟨before, text, behind, rfl, htext, rfl, hbehind⟩ := h.exists_comment hm
    exact ⟨byteOrderMark :: before, text, behind, rfl, htext, by rw [byteLength_cons, Nat.zero_add], hbehind⟩

theorem IsTrivia.comment_span (h : IsTrivia (offset == 0) last gap)
    (hm : m ∈ triviaComments none offset gap) :
    ∃ before k, gap = before ++ k ∧ m.span.start = offset + byteLength before ∧
      m.span.start < m.span.stop ∧ m.span.stop ≤ offset + byteLength gap := by
  obtain ⟨before, text, behind, rfl, -, rfl, -⟩ := h.exists_comment hm
  refine ⟨before, '#' :: text ++ behind, by simp, rfl, ?_, ?_⟩
  · simp only [commentAt]
    omega
  · simp only [commentAt, byteLength_append, byteLength_cons, utf8Size_hash]
    omega

theorem IsTrivia.comments_append (h : IsTrivia (offset == 0) false gap) (cs : List Char) :
    triviaComments none offset (gap ++ cs) =
      triviaComments none offset gap ++ triviaComments none (offset + byteLength gap) cs := by
  rcases h with h | ⟨hoffset, gap, rfl, h⟩
  · exact h.comments_append offset cs
  · obtain rfl : offset = 0 := by simpa using hoffset
    rw [List.cons_append, triviaComments_mark, triviaComments_mark, h.comments_append, byteLength_cons,
      Nat.zero_add]

theorem IsTrivia.scan_append (h : IsTrivia (offset == 0) false gap) (cs : List Char) :
    scan offset (gap ++ cs) = scan (offset + byteLength gap) cs := by
  rcases h with h | ⟨hoffset, gap, rfl, h⟩
  · exact scan_gap h offset cs
  · obtain rfl : offset = 0 := by simpa using hoffset
    rw [List.cons_append, scan_mark, scan_gap h, byteLength_cons, Nat.zero_add]

/-- The comments before a token stand in the gap before it, which ends where the token starts. -/
theorem comments_of_scan (h : scan offset cs = .ok (t, rest)) (he : t.isEnd = false) :
    ∃ gap c lex, cs = gap ++ (c :: lex ++ rest) ∧ IsTrivia (offset == 0) false gap ∧
      t.span = ⟨offset + byteLength gap, offset + byteLength gap + byteLength (c :: lex)⟩ ∧
      scanToken (offset + byteLength gap) c (lex ++ rest) = .ok (t, rest) ∧
      triviaComments none offset cs = triviaComments none offset gap := by
  obtain ⟨gap, lex, rfl, hgap, hne, hspan, hw, hp⟩ := scan_written h he
  obtain ⟨c, lex, rfl⟩ := List.exists_cons_of_ne_nil hne
  have hscan := scanToken_of_written hw hspan hp
  obtain ⟨hhash, hignored, hmark⟩ := start_of_scanToken hscan
  rw [List.append_assoc]
  refine ⟨gap, c, lex, rfl, hgap, hspan, hscan, ?_⟩
  rw [hgap.comments_append, List.cons_append, triviaComments_of_start hhash hignored hmark,
    List.append_nil]

/-- A token that starts right where it is looked for has no comment before it. -/
theorem triviaComments_of_scan (h : scan offset cs = .ok (t, rest)) (he : t.isEnd = false)
    (hstart : t.span.start = offset) : triviaComments none offset cs = [] := by
  obtain ⟨gap, c, lex, -, -, hspan, -, hcomments⟩ := comments_of_scan h he
  obtain rfl : gap = [] := by
    by_contra hne
    have := byteLength_pos hne
    rw [hspan] at hstart
    simp only at hstart
    omega
  exact hcomments

end Gap

/-! ### Comments of a text -/

section Text
variable {offset limit : Nat} {cs rest : List Char} {ts us : List Token} {t m last : Token} {s : Source}

theorem Tokenizes.exists_remarks (h : Tokenizes offset cs ts last) : ∃ us, Remarks offset cs ts us := by
  obtain ⟨offset', rest, hscans, hlast, hend⟩ := h
  induction hscans with
  | nil => exact ⟨_, .finish hlast hend⟩
  | cons h he _ ih =>
    obtain ⟨us, hus⟩ := ih hlast
    exact ⟨_, .token h he hus⟩

theorem Remarks.exists_tokenizes (h : Remarks offset cs ts us) : ∃ last, Tokenizes offset cs ts last := by
  induction h with
  | finish h he => exact ⟨_, _, _, .nil _ _, h, he⟩
  | token h he _ ih =>
    obtain ⟨last, htokens⟩ := ih
    exact ⟨last, .cons h he htokens⟩

/-- The bound on the number of tokens is never reached. -/
theorem Remarks.commentsFrom (h : Remarks offset cs ts us) (hl : cs.length < limit) :
    commentsFrom limit offset cs = .ok us := by
  induction h generalizing limit with
  | finish h he =>
    obtain ⟨limit, rfl⟩ : ∃ n, limit = n + 1 := ⟨limit - 1, by omega⟩
    rw [QueryDocs.commentsFrom, h]
    simp only [bind, Except.bind, he, if_true]
  | token h he _ ih =>
    obtain ⟨limit, rfl⟩ : ∃ n, limit = n + 1 := ⟨limit - 1, by omega⟩
    have hlt := length_rest_lt h he
    have hmore := @ih limit (by omega)
    rw [QueryDocs.commentsFrom, h]
    simp only [bind, Except.bind, he, Bool.false_eq_true, if_false, hmore]

/-- Only what stands before the first token depends on the start of the text. -/
theorem Remarks.of_scan_eq {offset' : Nat} {cs' : List Char} {vs : List Token}
    (h : Remarks offset' cs' ts us) (he : scan offset cs = scan offset' cs')
    (hc : triviaComments none offset cs = vs ++ triviaComments none offset' cs') :
    Remarks offset cs ts (vs ++ us) := by
  cases h with
  | finish h hend =>
    rw [← hc]
    exact .finish (he.trans h) hend
  | token h hend hs =>
    rw [← List.append_assoc, ← hc]
    exact .token (he.trans h) hend hs

theorem Remarks.of_trivia {gap : List Char} (h : Remarks (offset + byteLength gap) cs ts us)
    (hgap : IsTrivia (offset == 0) false gap) :
    Remarks offset (gap ++ cs) ts (triviaComments none offset gap ++ us) :=
  h.of_scan_eq (hgap.scan_append cs) (hgap.comments_append cs)

theorem Remarks.exists_start (h : Remarks offset cs ts us) (hm : m ∈ us) :
    ∃ before k, cs = before ++ k ∧ m.span.start = offset + byteLength before := by
  induction h with
  | finish h he =>
    obtain ⟨before, k, hcs, hstart, -⟩ := (scan_trivia h he).comment_span hm
    exact ⟨before, k, hcs, hstart⟩
  | token h he _ ih =>
    obtain ⟨gap, c, lex, rfl, hgap, hspan, -, hcomments⟩ := comments_of_scan h he
    rw [hcomments] at hm
    rcases List.mem_append.mp hm with hm | hm
    · obtain ⟨before, k, rfl, hstart, -⟩ := hgap.comment_span hm
      exact ⟨before, _, List.append_assoc _ _ _, hstart⟩
    · obtain ⟨before, k, rfl, hstart⟩ := ih hm
      refine ⟨gap ++ (c :: lex ++ before), k, by simp, ?_⟩
      rw [hstart, hspan]
      simp only [byteLength_append]
      omega

/-- **The comments of a text stand one behind another.** -/
theorem Remarks.ordered (h : Remarks offset cs ts us) :
    us.Pairwise fun m n => m.span.stop ≤ n.span.start := by
  induction h with
  | finish h he => exact (scan_trivia h he).comments_ordered
  | token h he hs ih =>
    obtain ⟨gap, c, lex, rfl, hgap, hspan, -, hcomments⟩ := comments_of_scan h he
    rw [hcomments]
    refine List.pairwise_append.mpr ⟨hgap.comments_ordered, ih, fun m hm n hn => ?_⟩
    obtain ⟨_, _, -, -, -, hm⟩ := hgap.comment_span hm
    obtain ⟨_, _, -, hn⟩ := hs.exists_start hn
    rw [hspan] at hn
    simp only at hn
    omega

theorem Remarks.comments (h : Remarks 0 s.chars ts us) : s.comments = .ok us :=
  h.commentsFrom (Nat.lt_succ_self _)

theorem Remarks.tokens (h : Remarks 0 s.chars ts us) : ∃ last, s.tokens = .ok (ts ++ [last]) := by
  obtain ⟨last, htokens⟩ := h.exists_tokenizes
  exact ⟨last, htokens.tokens⟩

end Text

end QueryDocs
