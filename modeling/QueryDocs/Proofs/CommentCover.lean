import QueryDocs.Proofs.Lexer.Comments
import QueryDocs.Proofs.TokenOrder

/-! # The comments of a text

The comments of a text are those that stand between its tokens, and there are no others: each number sign
of the text is in one token or in one comment (`Source.readComments_cover`). What is passed over before the
tokens and what a second look at the bytes there finds is the same. -/

namespace QueryDocs

open QueryDocs.Text

/-- Two tokens are apart if one of them ends before the other one starts. -/
def Token.Apart (t u : Token) : Prop := t.span.stop ≤ u.span.start ∨ u.span.stop ≤ t.span.start

/-- A comment of a text is a number sign with the text behind it, up to the first line end or to the end of
the whole text. -/
def Source.HasComment (s : Source) (u : Token) : Prop :=
  ∃ text behind, u = commentAt u.span.start text ∧ s.TextFrom u.span.start ('#' :: text ++ behind) ∧
    ('\r' ∉ text ∧ '\n' ∉ text) ∧ (behind = [] ∨ ∃ c cs, behind = c :: cs ∧ (c = '\r' ∨ c = '\n'))

/-- Beside its tokens a text has some comments, one behind another, and each number sign stands in one token
or comment. -/
structure Source.Commented (s : Source) (ts us : List Token) : Prop where
  comments : ∀ u ∈ us, s.HasComment u
  ordered : Ordered us
  apart : ∀ t ∈ ts, ∀ u ∈ us, t.Apart u
  sign : ∀ n, s.bytes[n]? = some '#'.toUInt8 → (ts ++ us).countP (fun t => t.span.contains n) = 1

/-! ### Number signs -/

section Signs
variable {last : Bool} {offset n : Nat} {c : Char} {cs gap before behind : List Char} {t m : Token}
  {ts us : List Token}

theorem countP_contains (h : ts.Pairwise Token.Apart) (ht : ∃ t ∈ ts, t.span.contains n = true) :
    ts.countP (fun t => t.span.contains n) = 1 := by
  obtain ⟨t, ht, hn⟩ := ht
  obtain ⟨front, back, rfl⟩ := List.append_of_mem ht
  have hnone : ∀ u, u.Apart t ∨ t.Apart u → ¬ u.span.contains n = true := by
    intro u hu hcontains
    obtain ⟨hlow, hhigh⟩ := Span.contains_iff.mp hn
    obtain ⟨hlow', hhigh'⟩ := Span.contains_iff.mp hcontains
    rcases hu with (h | h) | h | h <;> omega
  obtain ⟨-, hback, hfront⟩ := List.pairwise_append.mp h
  have hfront' : front.countP (fun u => u.span.contains n) = 0 :=
    List.countP_eq_zero.mpr fun u hu => hnone u (.inl (hfront u hu t List.mem_cons_self))
  have hback' : back.countP (fun u => u.span.contains n) = 0 :=
    List.countP_eq_zero.mpr fun u hu => hnone u (.inr ((List.pairwise_cons.mp hback).1 u hu))
  rw [List.countP_append, List.countP_cons, hfront', hback', if_pos hn]

theorem sign_append {as bs : List Char} (h : as ++ bs = before ++ '#' :: behind) :
    (∃ part, as = before ++ '#' :: part) ∨ ∃ more, before = as ++ more ∧ bs = more ++ '#' :: behind := by
  rcases List.append_eq_append_iff.mp h with hmore | ⟨part, rfl, hpart⟩
  · exact .inr hmore
  · cases part with
    | nil => exact .inr ⟨[], by simp, hpart.symm⟩
    | cons c part =>
      obtain ⟨rfl, -⟩ := List.cons.inj hpart
      exact .inl ⟨part, rfl⟩

theorem byteLength_lt_of_sign (h : cs = before ++ '#' :: behind) : byteLength before < byteLength cs := by
  rw [h, byteLength_append, byteLength_cons, utf8Size_hash]
  omega

theorem contains_commentAt {text : List Char} (h : '#' :: text = before ++ '#' :: behind) (offset : Nat) :
    (commentAt offset text).span.contains (offset + byteLength before) = true := by
  have hlt := byteLength_lt_of_sign h
  rw [byteLength_cons, utf8Size_hash] at hlt
  simp only [commentAt, Span.contains_iff]
  omega

theorem IsGap.exists_sign (h : IsGap last gap) (hgap : gap = before ++ '#' :: behind) :
    ∃ m ∈ triviaComments none offset gap, m.span.contains (offset + byteLength before) = true := by
  induction h generalizing offset before with
  | nil => simp at hgap
  | @blank c gap hc h ih =>
    rw [triviaComments_blank hc]
    cases before with
    | nil =>
      obtain ⟨rfl, -⟩ := List.cons.inj hgap
      simp at hc
    | cons d before =>
      obtain ⟨rfl, htail⟩ := List.cons.inj hgap
      rw [byteLength_cons, ← Nat.add_assoc]
      exact ih htail
  | @comment text c gap htext hc h ih =>
    rw [triviaComments_comment htext hc]
    rw [← List.cons_append] at hgap
    rcases sign_append hgap with ⟨part, hline⟩ | ⟨more, rfl, hmore⟩
    · exact ⟨_, List.mem_cons_self, contains_commentAt hline offset⟩
    · cases more with
      | nil =>
        obtain ⟨rfl, -⟩ := List.cons.inj hmore
        simp at hc
      | cons d more =>
        obtain ⟨rfl, htail⟩ := List.cons.inj hmore
        obtain ⟨m, hm, hcontains⟩ := @ih (offset + 1 + byteLength text + 1) more htail
        refine ⟨m, List.mem_cons_of_mem _ hm, ?_⟩
        rw [byteLength_append, byteLength_cons, byteLength_cons, utf8Size_hash, utf8Size_lineEnd hc]
        simpa only [Nat.add_assoc] using hcontains
  | @openComment text _ htext =>
    rw [triviaComments_openComment htext]
    exact ⟨_, List.mem_cons_self, contains_commentAt hgap offset⟩

theorem IsTrivia.exists_sign (h : IsTrivia (offset == 0) last gap) (hgap : gap = before ++ '#' :: behind) :
    ∃ m ∈ triviaComments none offset gap, m.span.contains (offset + byteLength before) = true := by
  rcases h with h | ⟨hoffset, gap, rfl, h⟩
  · exact h.exists_sign hgap
  · obtain rfl : offset = 0 := by simpa using hoffset
    rw [triviaComments_mark]
    cases before with
    | nil => exact absurd (List.cons.inj hgap).1 (by decide)
    | cons d before =>
      obtain ⟨rfl, htail⟩ := List.cons.inj hgap
      rw [byteLength_cons, Nat.zero_add]
      exact h.exists_sign htail

/-- **Each number sign of a text is in a token or in a comment.** -/
theorem Remarks.exists_sign (h : Remarks offset cs ts us) (hcs : cs = before ++ '#' :: behind) :
    ∃ t ∈ ts ++ us, t.span.contains (offset + byteLength before) = true := by
  induction h generalizing before with
  | finish h he => exact (scan_trivia h he).exists_sign hcs
  | @token offset cs rest t ts us h he _ ih =>
    obtain ⟨gap, c, lex, rfl, hgap, hspan, -, hcomments⟩ := comments_of_scan h he
    rw [hcomments]
    -- the number sign stands in the gap before the token, in the token, or behind it
    rcases sign_append hcs with ⟨part, hpart⟩ | ⟨more, rfl, hmore⟩
    · obtain ⟨m, hm, hcontains⟩ := hgap.exists_sign hpart
      exact ⟨m, by simp [hm], hcontains⟩
    rw [byteLength_append, ← Nat.add_assoc]
    rcases sign_append hmore with ⟨part, hpart⟩ | ⟨more, rfl, hrest⟩
    · have hlt := byteLength_lt_of_sign hpart
      refine ⟨t, by simp, ?_⟩
      rw [hspan, Span.contains_iff]
      exact ⟨Nat.le_add_right _ _, Nat.add_lt_add_left hlt _⟩
    · obtain ⟨u, hu, hcontains⟩ := ih hrest
      rw [hspan] at hcontains
      refine ⟨u, ?_, by rwa [byteLength_append, ← Nat.add_assoc]⟩
      rcases List.mem_append.mp hu with hu | hu <;> simp [hu]

end Signs

/-! ### Comments and tokens -/

section Comments
variable {s : Source} {offset limit : Nat} {cs : List Char} {ts us : List Token} {t u m last : Token}
  {e : LexError}

theorem Source.HasComment.pos (h : s.HasComment u) : u.span.start < u.span.stop := by
  obtain ⟨text, -, hcomment, -⟩ := h
  rw [hcomment, commentAt]
  simp only
  omega

theorem Source.HasComment.stop_le (h : s.HasComment u) : u.span.stop ≤ s.size := by
  obtain ⟨text, behind, hcomment, htextFrom, -⟩ := h
  have hend : s.IsBoundary (u.span.start + byteLength ('#' :: text)) := ⟨behind, htextFrom.append⟩
  rw [hcomment]
  simpa only [commentAt, byteLength_cons, utf8Size_hash, Nat.add_assoc] using hend.le_size

theorem Remarks.hasComment (h : Remarks offset cs ts us) (hs : s.TextFrom offset cs) (hm : m ∈ us) :
    s.HasComment m := by
  induction h with
  | finish h he =>
    obtain ⟨before, text, behind, rfl, htext, rfl, hbehind⟩ := (scan_trivia h he).exists_comment hm
    rw [List.append_assoc] at hs
    exact ⟨text, behind, rfl, hs.append, htext, hbehind.imp_left And.left⟩
  | @token offset cs rest t ts us h he _ ih =>
    have hrest : s.TextFrom t.span.stop rest := (Scans.cons h he (.nil _ _)).textFrom hs
    obtain ⟨gap, c, lex, rfl, hgap, -, -, hcomments⟩ := comments_of_scan h he
    rw [hcomments] at hm
    rcases List.mem_append.mp hm with hm | hm
    · obtain ⟨before, text, behind, rfl, htext, rfl, hbehind⟩ := hgap.exists_comment hm
      rw [List.append_assoc, List.append_assoc] at hs
      refine ⟨text, behind ++ (c :: lex ++ rest), rfl, by simpa [commentAt] using hs.append, htext, .inr ?_⟩
      rcases hbehind with ⟨-, hlast⟩ | ⟨d, ds, rfl, hd⟩
      · cases hlast
      · exact ⟨d, _, List.cons_append, hd⟩
    · exact ih hrest hm

theorem Remarks.le_start (h : Remarks offset cs ts us) :
    (∀ t ∈ ts, offset ≤ t.span.start) ∧ ∀ u ∈ us, offset ≤ u.span.start := by
  refine ⟨fun t ht => ?_, fun u hu => ?_⟩
  · obtain ⟨last, offset', rest, hscans, -, -⟩ := h.exists_tokenizes
    exact (hscans.spans.2.1 t ht).1
  · obtain ⟨before, -, -, hstart⟩ := h.exists_start hu
    omega

/-- **Comments and tokens are apart.** -/
theorem Remarks.apart (h : Remarks offset cs ts us) : ∀ t ∈ ts, ∀ u ∈ us, t.Apart u := by
  induction h with
  | finish => simp
  | @token offset cs rest t ts us h he hs ih =>
    obtain ⟨hts, hus⟩ := hs.le_start
    obtain ⟨gap, c, lex, rfl, hgap, hspan, -, hcomments⟩ := comments_of_scan h he
    have hle : t.span.start = offset + byteLength gap ∧ t.span.start ≤ t.span.stop := by
      rw [hspan]
      exact ⟨rfl, Nat.le_add_right _ _⟩
    rw [hcomments]
    intro v hv u hu
    rcases List.mem_append.mp hu with hu | hu
    · -- a comment of the gap ends before the token, and so before all others
      obtain ⟨_, _, -, -, -, hstop⟩ := hgap.comment_span hu
      right
      rcases List.mem_cons.mp hv with rfl | hv
      · omega
      · have := hts v hv
        omega
    · rcases List.mem_cons.mp hv with rfl | hv
      · exact .inl (hus u hu)
      · exact ih v hv u hu

theorem Remarks.commented (h : Remarks 0 s.chars ts us) (hts : Tokenizes 0 s.chars ts (.endOfText s.size)) :
    s.Commented (ts ++ [.endOfText s.size]) us := by
  have hcomments : ∀ u ∈ us, s.HasComment u := fun u hu => h.hasComment s.textFrom_zero hu
  have hordered : Ordered us := ⟨fun u hu => (hcomments u hu).pos, h.ordered⟩
  have hapart : ∀ t ∈ ts ++ [.endOfText s.size], ∀ u ∈ us, t.Apart u := by
    intro t ht u hu
    rcases List.mem_append.mp ht with ht | ht
    · exact h.apart t ht u hu
    · rw [List.mem_singleton.mp ht]
      exact .inr (hcomments u hu).stop_le
  refine ⟨hcomments, hordered, hapart, fun n hn => countP_contains ?_ ?_⟩
  · obtain ⟨⟨-, hpairwise⟩, hstop⟩ := hts.ordered
    refine List.pairwise_append.mpr ⟨?_, hordered.pairwise.imp .inl, hapart⟩
    refine List.pairwise_append.mpr ⟨hpairwise.imp .inl, List.pairwise_singleton _ _, fun t ht v hv => ?_⟩
    rw [List.mem_singleton.mp hv]
    exact .inl (hstop t ht)
  · obtain ⟨behind, before, hchars, rfl⟩ := s.textFrom_of_byte hn (by decide)
    obtain ⟨t, ht, hcontains⟩ := h.exists_sign hchars
    refine ⟨t, ?_, by rwa [Nat.zero_add] at hcontains⟩
    rcases List.mem_append.mp ht with ht | ht <;> simp [ht]

theorem commentsFrom_error (h : (TokenStream.ofChars limit offset cs).toList = .error e) :
    commentsFrom limit offset cs = .error e := by
  induction limit generalizing offset cs with
  | zero => cases h
  | succ limit ih =>
    rw [TokenStream.ofChars] at h
    rw [commentsFrom]
    cases hscan : scan offset cs with
    | error f =>
      rw [hscan] at h
      cases h
      rfl
    | ok r =>
      obtain ⟨t, rest⟩ := r
      cases he : t.isEnd with
      | true => simp only [hscan, he, if_true, TokenStream.toList] at h; cases h
      | false =>
        simp only [hscan, he, Bool.false_eq_true, if_false, TokenStream.toList] at h
        have hrest : (TokenStream.ofChars limit t.span.stop rest).toList = .error e := by
          cases hr : (TokenStream.ofChars limit t.span.stop rest).toList with
          | error f => rw [hr] at h; cases h; rfl
          | ok vs => rw [hr] at h; cases h
        simp only [bind, Except.bind, he, Bool.false_eq_true, if_false, ih hrest]

end Comments

/-- **The comments of a text are found, each of them once.** They can be read if the tokens can, and there
is the same error if not; nothing traps. A second look at the bytes between the tokens gives the comments
that are passed over there. They stand one behind another, apart from all tokens, and each number sign of
the text is in exactly one token or comment. -/
theorem Source.readComments_cover (s : Source) :
    match s.tokens with
    | .error e => s.readComments = .error (.lexical e) ∧ s.comments = .error e
    | .ok ts => ∃ us, s.readComments = .ok us ∧ s.comments = .ok us ∧ s.Commented ts us := by
  cases htokens : s.tokens with
  | error e =>
    refine ⟨?_, commentsFrom_error htokens⟩
    rw [readComments, htokens]
    rfl
  | ok ts =>
    obtain ⟨ts, rfl, htokenizes⟩ := Source.tokens_eq_ok htokens
    obtain ⟨us, hremarks⟩ := htokenizes.exists_remarks
    refine ⟨us, ?_, hremarks.comments, hremarks.commented htokenizes⟩
    rw [readComments, htokens]
    exact hremarks.commentsBefore s.textFrom_zero

/-- Comments that a carriage return, a line feed and the end of the text end, and a string. -/
example : Source.readComments ⟨"#a\r\x7b x # b\n(y: \"#\") \x7d#", none⟩ =
    .ok [commentAt 0 ['a'], commentAt 7 [' ', 'b'], commentAt 21 []] := by decide +kernel

end QueryDocs
