import QueryDocs.Layout.Header
import QueryDocs.Proofs.Excerpt

/-! # Headers

The header of a document ends with the last comment before its first token (`Source.exists_partsComments`).
The gap up to there can stand before another text, with a line end behind it (`IsTrivia.exists_front`):
there it holds the same comments, and they are the header again. -/

namespace QueryDocs

open QueryDocs.Text

/-- The offset at which the last of some comments ends, or a given one if there is none. -/
def lastStop (stop : Nat) (us : List Token) : Nat := (us.getLast?.map (·.span.stop)).getD stop

/-- The comments of a source in order, those before its first token and those behind it. -/
structure Source.PartsComments (s : Source) (leading trailing : List Token) : Prop where
  comments : s.comments = .ok (leading ++ trailing)
  ordered : (leading ++ trailing).Pairwise fun m n => m.span.stop ≤ n.span.start
  first : ∃ first ts, s.tokens = .ok (first :: ts) ∧ (∀ m ∈ leading, m.span.stop ≤ first.span.start) ∧
    ∀ m ∈ trailing, first.span.stop ≤ m.span.start

section Header
variable {last : Bool} {stop offset : Nat} {c : Char} {blanks before cs gap body : List Char}
  {ts us leading trailing : List Token} {m : Token} {s : Source}

@[simp] theorem lastStop_nil : lastStop stop [] = stop := rfl

@[simp] theorem lastStop_cons : lastStop stop (m :: us) = lastStop m.span.stop us := by
  rw [lastStop, lastStop, List.getLast?_cons]
  cases us.getLast? <;> rfl

theorem isHeaderGap_of_scanToken {t : Token} {rest : List Char}
    (h : scanToken offset c cs = .ok (t, rest)) : isHeaderGap c = false := by
  obtain ⟨-, hignored, hmark⟩ := start_of_scanToken h
  have hcomma : c ≠ ',' := by
    rintro rfl
    cases hignored
  simp [isHeaderGap, scanToken_blank h, hcomma, hmark]

theorem isHeaderGap_of_ignored (h : c ∈ [' ', '\t', '\r', '\n', ',']) : isHeaderGap c = true := by
  simp only [List.mem_cons, List.not_mem_nil, or_false] at h
  rcases h with rfl | rfl | rfl | rfl | rfl <;> rfl

/-! ### Where the header ends -/

/-- A comment with nothing but blanks before it belongs to the header. -/
theorem Source.headerFrom_comment (hs : s.TextFrom stop (blanks ++ cs))
    (hblanks : ∀ c ∈ blanks, isHeaderGap c = true) (hm : m.span.start = stop + byteLength blanks) :
    s.headerFrom stop (m :: us) = s.headerFrom m.span.stop us := by
  have hall : (String.ofList blanks).toList.all isHeaderGap = true := by
    rw [String.toList_ofList]
    exact List.all_eq_true.mpr hblanks
  rw [headerFrom, hm, hs.slice]
  exact if_pos hall

/-- A comment behind the start of a token does not. -/
theorem Source.headerFrom_token (hs : s.TextFrom stop (before ++ cs)) (hc : c ∈ before)
    (hgap : isHeaderGap c = false) (hm : m.span.start = stop + byteLength before) :
    s.headerFrom stop (m :: us) = .ok (stop, us.length + 1) := by
  have hnot : ¬ (String.ofList before).toList.all isHeaderGap = true := by
    rw [String.toList_ofList, List.all_eq_true]
    intro hall
    rw [hall c hc] at hgap
    cases hgap
  rw [headerFrom, hm, hs.slice]
  exact if_neg hnot

/-- The comments of a gap belong to the header. -/
theorem IsGap.headerFrom (h : IsGap last gap) (blanks : List Char) (us : List Token)
    (hs : s.TextFrom stop (blanks ++ (gap ++ body)))
    (hblanks : ∀ c ∈ blanks, isHeaderGap c = true) :
    s.headerFrom stop (triviaComments none (stop + byteLength blanks) gap ++ us) =
      s.headerFrom (lastStop stop (triviaComments none (stop + byteLength blanks) gap)) us := by
  induction h generalizing stop blanks with
  | nil => rfl
  | @blank c gap hc h ih =>
    have hoffset : stop + byteLength blanks + c.utf8Size = stop + byteLength (blanks ++ [c]) := by
      simp [Nat.add_assoc]
    have hblanks' : ∀ d ∈ blanks ++ [c], isHeaderGap d = true := by
      simpa [or_imp, forall_and, isHeaderGap_of_ignored hc] using hblanks
    rw [triviaComments_blank hc, hoffset]
    exact ih (blanks ++ [c]) (by simpa using hs) hblanks'
  | @comment text c gap htext hc h ih =>
    have hstop : (commentAt (stop + byteLength blanks) text).span.stop =
        stop + byteLength (blanks ++ '#' :: text) := by
      simp only [commentAt, byteLength_append, byteLength_cons, utf8Size_hash]
      omega
    have hnext : stop + byteLength blanks + 1 + byteLength text + 1 =
        (commentAt (stop + byteLength blanks) text).span.stop + byteLength [c] := by
      simp only [commentAt, byteLength_cons, byteLength_nil, utf8Size_lineEnd hc]
    have hs' : s.TextFrom (commentAt (stop + byteLength blanks) text).span.stop
        ([c] ++ (gap ++ body)) := by
      rw [hstop]
      refine Source.TextFrom.append ?_
      simpa using hs
    have hc' : ∀ d ∈ [c], isHeaderGap d = true := by
      rintro d hd
      rw [List.mem_singleton.mp hd]
      rcases hc with rfl | rfl <;> rfl
    rw [triviaComments_comment htext hc, List.cons_append, Source.headerFrom_comment hs hblanks rfl,
      hnext, ih [c] hs' hc', lastStop_cons]
  | @openComment text _ htext =>
    rw [triviaComments_openComment htext, List.cons_append,
      Source.headerFrom_comment hs hblanks rfl]
    rfl

theorem IsTrivia.headerFrom (h : IsTrivia true last gap) (us : List Token) (hs : s.chars = gap ++ body) :
    s.headerFrom 0 (triviaComments none 0 gap ++ us) =
      s.headerFrom (lastStop 0 (triviaComments none 0 gap)) us := by
  have hzero : s.TextFrom 0 (gap ++ body) := by
    rw [← hs]
    exact s.textFrom_zero
  rcases h with h | ⟨-, gap, rfl, h⟩
  · exact h.headerFrom [] us hzero (by simp)
  · have hmark : ∀ c ∈ [byteOrderMark], isHeaderGap c = true := List.forall_mem_singleton.mpr rfl
    have := h.headerFrom [byteOrderMark] us hzero hmark
    rw [triviaComments_mark]
    simpa using this

/-! ### The header as the front of a text -/

/-- What is left of a gap behind its last comment can be replaced by one line end. -/
theorem IsGap.exists_front (h : IsGap last gap) (hne : triviaComments none offset gap ≠ []) :
    ∃ front blanks, gap = front ++ blanks ∧ IsGap false (front ++ ['\n']) ∧
      triviaComments none offset (front ++ ['\n']) = triviaComments none offset gap ∧
      (triviaComments none offset gap).getLast?.map (·.span.stop) = some (offset + byteLength front) := by
  induction h generalizing offset with
  | nil => exact absurd rfl hne
  | @blank c gap hc h ih =>
    rw [triviaComments_blank hc] at hne ⊢
    obtain ⟨front, blanks, rfl, hgap, hcomments, hstop⟩ := ih hne
    refine ⟨c :: front, blanks, rfl, .blank hc hgap, ?_, ?_⟩
    · rw [List.cons_append, triviaComments_blank hc, hcomments]
    · rw [hstop, byteLength_cons, Nat.add_assoc]
  | @comment text c gap htext hc h ih =>
    rw [triviaComments_comment htext hc]
    by_cases hgap : triviaComments none (offset + 1 + byteLength text + 1) gap = []
    · refine ⟨'#' :: text, c :: gap, rfl, .comment htext (Or.inr rfl) .nil, ?_, ?_⟩
      · rw [hgap, List.cons_append, triviaComments_comment htext (Or.inr rfl)]
        rfl
      · rw [hgap, byteLength_cons, utf8Size_hash, ← Nat.add_assoc]
        rfl
    · obtain ⟨front, blanks, rfl, hclosed, hcomments, hstop⟩ := ih hgap
      refine ⟨'#' :: (text ++ c :: front), blanks, by simp, ?_, ?_, ?_⟩
      · simpa using IsGap.comment htext hc hclosed
      · rw [List.cons_append, List.append_assoc, List.cons_append, triviaComments_comment htext hc,
          hcomments]
      · rw [List.getLast?_cons_of_ne_nil hgap, hstop]
        simp only [byteLength_cons, byteLength_append, utf8Size_hash, utf8Size_lineEnd hc]
        congr 1
        omega
  | @openComment text _ htext =>
    rw [triviaComments_openComment htext]
    refine ⟨'#' :: text, [], by simp, .comment htext (Or.inr rfl) .nil, ?_, ?_⟩
    · rw [List.cons_append, triviaComments_comment htext (Or.inr rfl)]
      rfl
    · rw [byteLength_cons, utf8Size_hash, ← Nat.add_assoc]
      rfl

/-- **The front of a text up to its last comment before the first token**, as a text of its own. -/
theorem IsTrivia.exists_front (h : IsTrivia true last gap) :
    ∃ front blanks, gap = front ++ blanks ∧ byteLength front = lastStop 0 (triviaComments none 0 gap) ∧
      (front = [] ∧ triviaComments none 0 gap = [] ∨ front ≠ [] ∧ IsTrivia true false (front ++ ['\n']) ∧
        triviaComments none 0 (front ++ ['\n']) = triviaComments none 0 gap) := by
  by_cases hne : triviaComments none 0 gap = []
  · rw [hne]
    exact ⟨[], gap, rfl, rfl, Or.inl ⟨rfl, rfl⟩⟩
  rcases h with h | ⟨-, gap, rfl, h⟩
  · obtain ⟨front, blanks, rfl, hgap, hcomments, hstop⟩ := h.exists_front hne
    refine ⟨front, blanks, rfl, ?_, Or.inr ⟨?_, Or.inl hgap, hcomments⟩⟩
    · rw [lastStop, hstop, Option.getD_some, Nat.zero_add]
    · rintro rfl
      exact hne hcomments.symm
  · rw [triviaComments_mark] at hne ⊢
    obtain ⟨front, blanks, rfl, hgap, hcomments, hstop⟩ := h.exists_front hne
    refine ⟨byteOrderMark :: front, blanks, rfl, ?_, Or.inr ⟨by simp, Or.inr ⟨rfl, _, rfl, hgap⟩, ?_⟩⟩
    · rw [lastStop, hstop, Option.getD_some, byteLength_cons]
    · rw [List.cons_append, triviaComments_mark, hcomments]

/-! ### Both sides of the first token -/

/-- **The comments of a text are parted by its first token**, and those before it are its header. -/
theorem Remarks.exists_parts (h : Remarks 0 s.chars ts us) :
    ∃ gap body last trailing, s.chars = gap ++ body ∧ IsTrivia true last gap ∧
      us = triviaComments none 0 gap ++ trailing ∧
      s.headerFrom 0 us = .ok (lastStop 0 (triviaComments none 0 gap), trailing.length) ∧
      (ts = [] ∧ body = [] ∧ trailing = [] ∨ ∃ t ts', ts = t :: ts' ∧
        t.span.start = byteLength gap ∧ t.span.start < t.span.stop ∧
        ∀ m ∈ trailing, t.span.stop ≤ m.span.start) := by
  generalize hchars : s.chars = cs at h
  cases h with
  | finish h he =>
    have hgap := scan_trivia h he
    have hheader := hgap.headerFrom [] (hchars.trans (List.append_nil cs).symm)
    rw [List.append_nil] at hheader
    exact ⟨cs, [], true, [], (List.append_nil cs).symm, hgap, (List.append_nil _).symm, hheader,
      Or.inl ⟨rfl, rfl, rfl⟩⟩
  | @token _ _ rest t ts us h he hs =>
    obtain ⟨gap, c, lex, rfl, hgap, hspan, hscan, hcomments⟩ := comments_of_scan h he
    rw [hcomments]
    refine ⟨gap, _, false, us, rfl, hgap, rfl, ?_, Or.inr ⟨t, ts, rfl, ?_, ?_, fun m hm => ?_⟩⟩
    · rw [hgap.headerFrom us hchars]
      cases us with
      | nil => rfl
      | cons m us =>
        -- the first comment behind the token stands behind its first character
        obtain ⟨front, blanks, rfl, hstop, -⟩ := hgap.exists_front
        obtain ⟨before, k, rfl, hstart⟩ := hs.exists_start (m := m) (by simp)
        have hfrom : s.TextFrom (lastStop 0 (triviaComments none 0 (front ++ blanks)))
            ((blanks ++ (c :: lex ++ before)) ++ k) :=
          ⟨front, by rw [hchars]; simp, hstop.symm⟩
        refine Source.headerFrom_token (c := c) hfrom (by simp) (isHeaderGap_of_scanToken hscan) ?_
        rw [hstart, hspan, ← hstop]
        simp only [byteLength_append]
        omega
    · rw [hspan, Nat.zero_add]
    · have hpos : 0 < byteLength (c :: lex) := byteLength_pos (by simp)
      rw [hspan]
      simp only
      omega
    · obtain ⟨before, k, -, hstart⟩ := hs.exists_start hm
      omega

theorem Source.header_of_remarks (h : Remarks 0 s.chars ts us) : s.header = s.headerFrom 0 us := by
  rw [header, h.comments]
  rfl

theorem Source.exists_remarks {d : Document} (h : s.parse = .ok d) :
    ∃ ts us, s.tokens = .ok (ts ++ [.endOfText s.size]) ∧ Remarks 0 s.chars ts us := by
  obtain ⟨-, ts, c, e, hopen, -⟩ := Source.run_of_parse h
  obtain ⟨us, hremarks⟩ := hopen.tokens.exists_remarks
  exact ⟨ts, us, hopen.tokens.tokens, hremarks⟩

/-- **The header of a document ends with the last comment before its first token.** -/
theorem Source.exists_partsComments {d : Document} (h : s.parse = .ok d) : ∃ leading trailing,
    s.PartsComments leading trailing ∧ s.header = .ok (lastStop 0 leading, trailing.length) := by
  obtain ⟨ts, us, htokens, hremarks⟩ := Source.exists_remarks h
  obtain ⟨gap, body, last, trailing, hchars, hgap, rfl, hheader, hfirst⟩ := hremarks.exists_parts
  refine ⟨_, trailing, ⟨hremarks.comments, hremarks.ordered, ?_⟩, by
    rw [Source.header_of_remarks hremarks, hheader]⟩
  have hstop : ∀ m ∈ triviaComments none 0 gap, m.span.stop ≤ byteLength gap := fun m hm => by
    have hgap' : IsTrivia ((0 : Nat) == 0) last gap := hgap
    obtain ⟨_, _, -, -, -, hm⟩ := hgap'.comment_span hm
    omega
  rcases hfirst with ⟨rfl, rfl, rfl⟩ | ⟨t, ts, rfl, hstart, -, htrailing⟩
  · refine ⟨_, [], htokens, fun m hm => ?_, by simp⟩
    rw [Source.size, hchars, List.append_nil]
    exact hstop m hm
  · exact ⟨t, _, htokens, by rwa [hstart], htrailing⟩

/-! ### Formatted texts -/

section Formatted
variable {d : Document} {style : Layout.Style} {name : Option String} {front text : String}

theorem Source.formatted_zero : s.formatted 0 d style = .ok (d.print style) := rfl

/-- A formatted text is the header, a line end and the printed document. -/
theorem Source.formatted_front (hstop : stop ≠ 0) (hfront : s.slice? ⟨0, stop⟩ = some front) :
    s.formatted stop d style = .ok (front ++ "\n" ++ d.print style) := by
  rw [formatted, if_neg hstop, hfront]
  rfl

/-- The front of a text up to the end of its header holds the comments of the header. -/
theorem Remarks.exists_front {n : Nat} (h : Remarks 0 s.chars ts us) (hheader : s.header = .ok (stop, n)) :
    ∃ leading trailing front, us = leading ++ trailing ∧ trailing.length = n ∧ lastStop 0 leading = stop ∧
      byteLength front = stop ∧ s.slice? ⟨0, stop⟩ = some (String.ofList front) ∧
      (front = [] ∧ leading = [] ∨ front ≠ [] ∧ IsTrivia true false (front ++ ['\n']) ∧
        triviaComments none 0 (front ++ ['\n']) = leading) := by
  obtain ⟨gap, body, last, trailing, hchars, hgap, rfl, hparts, -⟩ := h.exists_parts
  rw [Source.header_of_remarks h, hparts] at hheader
  cases hheader
  obtain ⟨front, blanks, rfl, hlength, hfront⟩ := hgap.exists_front
  refine ⟨_, trailing, front, rfl, rfl, rfl, hlength, ?_, hfront⟩
  rw [← hlength]
  exact Source.slice?_zero.mpr ⟨blanks ++ body, by simpa using hchars, by simp⟩

/-- **A formatted text has the comments of the header**, and the tokens of the document. -/
theorem Remarks.formatted (h : Remarks 0 s.chars ts us) (hheader : s.header = .ok (stop, 0))
    (hd : ∀ l ∈ d.lexemes, l.Valid) (style : Layout.Style) (name : Option String) :
    ∃ text front vs, s.formatted stop d style = .ok text ∧ s.slice? ⟨0, stop⟩ = some front ∧
      Source.slice? ⟨text, name⟩ ⟨0, stop⟩ = some front ∧ Remarks 0 (Source.chars ⟨text, name⟩) vs us ∧
      vs.map Token.lexeme = d.lexemes.map (relabel .print) ∧ Source.header ⟨text, name⟩ = .ok (stop, 0) := by
  obtain ⟨leading, trailing, front, rfl, htrailing, hlast, rfl, hslice, hfront⟩ := h.exists_front hheader
  obtain rfl := List.eq_nil_of_length_eq_zero htrailing
  have hprint : (d.print style).toList = (Layout.document style d).flatMap Layout.Piece.chars :=
    Layout.text_toList _
  rw [List.append_nil]
  rcases hfront with ⟨rfl, rfl⟩ | ⟨hne, hclosed, rfl⟩
  · obtain ⟨vs, hvs, hls⟩ := (prints_document style d).remarks hd 0
    rw [← hprint] at hvs
    have hslice' : Source.slice? ⟨d.print style, name⟩ ⟨0, 0⟩ = some (String.ofList []) :=
      Source.slice?_zero.mpr ⟨(d.print style).toList, rfl, rfl⟩
    have hheader' : Source.header ⟨d.print style, name⟩ = .ok (0, 0) :=
      Source.header_of_remarks (s := ⟨d.print style, name⟩) hvs
    exact ⟨_, _, vs, Source.formatted_zero, hslice, hslice', hvs, hls, hheader'⟩
  · obtain ⟨vs, hvs, hls⟩ := (prints_document style d).remarks hd (0 + byteLength (front ++ ['\n']))
    have hformatted : s.formatted (byteLength front) d style = _ :=
      Source.formatted_front (Nat.ne_of_gt (byteLength_pos hne)) hslice
    generalize htext : String.ofList front ++ "\n" ++ d.print style = text at hformatted
    have hchars : Source.chars ⟨text, name⟩ =
        front ++ ['\n'] ++ (Layout.document style d).flatMap Layout.Piece.chars := by
      simp [← htext, Source.chars, hprint]
    have hremarks := hvs.of_trivia hclosed
    rw [← hchars, List.append_nil] at hremarks
    have hheader' := Source.header_of_remarks hremarks
    have hfrom := hclosed.headerFrom [] hchars
    rw [List.append_nil, hlast] at hfrom
    rw [hfrom] at hheader'
    have hslice' : Source.slice? ⟨text, name⟩ ⟨0, byteLength front⟩ = some (String.ofList front) :=
      Source.slice?_zero.mpr ⟨'\n' :: (Layout.document style d).flatMap Layout.Piece.chars,
        by simp [hchars], by simp⟩
    exact ⟨text, _, vs, hformatted, hslice, hslice', hremarks, hls, hheader'⟩

/-- **The header of a document can be cut from it.** -/
theorem Source.exists_formatted {n : Nat} (h : s.parse = .ok d) (hheader : s.header = .ok (stop, n))
    (style : Layout.Style) : ∃ text, s.formatted stop d style = .ok text := by
  obtain ⟨ts, us, -, hremarks⟩ := Source.exists_remarks h
  obtain ⟨-, -, front, -, -, -, -, hslice, -⟩ := hremarks.exists_front hheader
  by_cases hstop : stop = 0
  · exact ⟨d.print style, by rw [hstop, Source.formatted_zero]⟩
  · exact ⟨_, Source.formatted_front hstop hslice⟩

end Formatted

end Header

end QueryDocs
