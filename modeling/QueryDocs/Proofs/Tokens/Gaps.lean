import QueryDocs.Proofs.Tokens.Offsets
import QueryDocs.Text.CharClass

/-! # Gaps between tokens

Between two tokens stand blanks, commas, and comments with the line ends that close them; only behind
the last token may a comment stay open, and only the very start of a text may be a byte-order mark.
`IsGap` and `IsTrivia` say so without reading anything. What is passed over before a token is such a
text (`scan_written`, `scan_trivia`), and wherever such a text stands it is passed over (`scan_gap`).
Between the gaps, a token covers a text that it is written with (`Scans.exists_written`). -/

namespace QueryDocs

open QueryDocs.Text

/-- A text that counts for nothing between tokens. A comment that no line end closes is one only where
the text stands `last`, behind all tokens. -/
inductive IsGap (last : Bool) : List Char → Prop where
  | nil : IsGap last []
  | blank {c : Char} {cs : List Char} (hc : c ∈ [' ', '\t', '\r', '\n', ',']) (h : IsGap last cs) :
      IsGap last (c :: cs)
  | comment {text : List Char} {c : Char} {cs : List Char} (htext : '\r' ∉ text ∧ '\n' ∉ text)
      (hc : c = '\r' ∨ c = '\n') (h : IsGap last cs) : IsGap last ('#' :: (text ++ c :: cs))
  | openComment {text : List Char} (hlast : last = true) (htext : '\r' ∉ text ∧ '\n' ∉ text) :
      IsGap last ('#' :: text)

/-- What may stand before a token: a gap, and `first` in a text a byte-order mark before it. -/
def IsTrivia (first last : Bool) (cs : List Char) : Prop :=
  IsGap last cs ∨ first = true ∧ ∃ gap, cs = byteOrderMark :: gap ∧ IsGap last gap

section Trivia
variable {first last b : Bool} {offset start : Nat} {c : Char} {cs gap lex rest : List Char}
  {t : Token}

theorem isLineEnd_iff : isLineEnd c = true ↔ c = '\r' ∨ c = '\n' := by
  simp [isLineEnd, or_comm]

theorem isIgnored_iff : isIgnored c = true ↔ c ∈ [' ', '\t', '\r', '\n', ','] := by
  simp [isIgnored, isLineEnd]
  tauto

theorem isLineEnd_of_notMem {text : List Char} (h : '\r' ∉ text ∧ '\n' ∉ text) :
    ∀ c ∈ text, isLineEnd c = false := by
  intro c hc
  rw [← Bool.not_eq_true, isLineEnd_iff]
  rintro (rfl | rfl)
  · exact h.1 hc
  · exact h.2 hc

theorem isGap_of_ignored (h : ∀ c ∈ cs, isIgnored c = true) : IsGap last cs := by
  induction cs with
  | nil => exact .nil
  | cons c cs ih =>
    obtain ⟨hc, hcs⟩ := List.forall_mem_cons.mp h
    exact .blank (isIgnored_iff.mp hc) (ih hcs)

/-! ### What is passed over -/

theorem IsGap.extend (hc : isLineEnd c = false) (h : IsGap last ('#' :: cs)) :
    IsGap last ('#' :: c :: cs) := by
  have hc : c ≠ '\r' ∧ c ≠ '\n' := by
    rwa [← not_or, ← isLineEnd_iff, Bool.not_eq_true]
  have hmore : ∀ {text : List Char}, '\r' ∉ text ∧ '\n' ∉ text →
      '\r' ∉ c :: text ∧ '\n' ∉ c :: text := fun h => by
    simpa [h.1, h.2, eq_comm] using hc
  cases h with
  | blank hhash => simp at hhash
  | comment htext hd h => exact @IsGap.comment last (c :: _) _ _ (hmore htext) hd h
  | openComment hlast htext => exact .openComment hlast (hmore htext)

/-- Behind its first character no text starts at the very start. -/
theorem IsTrivia.isGap (h : IsTrivia (offset + c.utf8Size == 0) last cs) : IsGap last cs := by
  rcases h with h | ⟨h, -⟩
  · exact h
  · have := c.utf8Size_pos
    simp at h
    omega

/-- What is passed over is trivia; behind a number sign that was passed over it is the rest of it. -/
theorem isTrivia_of_skipTrivia (h : skipTrivia b offset cs = (start, rest)) :
    ∃ gap, cs = gap ++ rest ∧ start = offset + byteLength gap ∧
      if b = true then IsGap rest.isEmpty ('#' :: gap) else IsTrivia (offset == 0) rest.isEmpty gap := by
  have hstep : ∀ {b' : Bool} {c : Char} {offset : Nat} {cs : List Char} {P : List Char → Prop},
      (∃ gap, cs = gap ++ rest ∧ start = offset + c.utf8Size + byteLength gap ∧
        if b' = true then IsGap rest.isEmpty ('#' :: gap)
        else IsTrivia (offset + c.utf8Size == 0) rest.isEmpty gap) →
      (∀ gap, (if b' = true then IsGap rest.isEmpty ('#' :: gap) else IsGap rest.isEmpty gap) →
        P (c :: gap)) →
      ∃ gap, c :: cs = gap ++ rest ∧ start = offset + byteLength gap ∧ P gap := by
    rintro b' c offset cs P ⟨gap, rfl, rfl, hgap⟩ hP
    refine ⟨c :: gap, rfl, by rw [byteLength_cons, Nat.add_assoc], hP gap ?_⟩
    cases b' with
    | true => exact hgap
    | false => exact IsTrivia.isGap hgap
  fun_induction skipTrivia b offset cs with
  | case1 b offset =>
    cases h
    cases b with
    | true => exact ⟨[], rfl, rfl, .openComment rfl (by simp)⟩
    | false => exact ⟨[], rfl, rfl, Or.inl .nil⟩
  | case2 offset c cs ih =>
    refine hstep (ih h) fun gap hgap => ?_
    cases hc : isLineEnd c with
    | true =>
      rw [hc] at hgap
      exact @IsGap.comment _ [] c gap (by simp) (isLineEnd_iff.mp hc) hgap
    | false =>
      rw [hc] at hgap
      exact hgap.extend hc
  | case3 b offset cs hb ih =>
    refine hstep (c := '#') (ih h) fun gap hgap => ?_
    rw [if_neg hb]
    exact Or.inl hgap
  | case4 b offset c cs hb hn hi ih =>
    refine hstep (ih h) fun gap hgap => ?_
    rw [if_neg hb]
    rcases Bool.or_eq_true _ _ ▸ hi with hi | hi
    · exact Or.inl (.blank (isIgnored_iff.mp hi) hgap)
    · obtain ⟨hmark, hoffset⟩ : c = byteOrderMark ∧ offset = 0 := by simpa using hi
      subst hmark hoffset
      exact Or.inr ⟨rfl, gap, rfl, hgap⟩
  | case5 b offset c cs hb hn hi =>
    cases h
    refine ⟨[], rfl, rfl, ?_⟩
    rw [if_neg hb]
    exact Or.inl .nil

theorem scan_trivia (h : scan offset cs = .ok (t, rest)) (he : t.isEnd = true) :
    IsTrivia (offset == 0) true cs := by
  unfold scan at h
  split at h
  · next start hskip =>
    obtain ⟨gap, rfl, -, hgap⟩ := isTrivia_of_skipTrivia hskip
    rwa [List.append_nil]
  · obtain ⟨lex, -, -, hv, -⟩ := scanToken_append h
    rw [Token.isEnd_eq_false_of_valid hv] at he
    cases he

/-- **A token is read where it is written, behind trivia.** -/
theorem scan_written (h : scan offset cs = .ok (t, rest)) (he : t.isEnd = false) :
    ∃ gap lex, cs = gap ++ lex ++ rest ∧ IsTrivia (offset == 0) false gap ∧ lex ≠ [] ∧
      t.span = ⟨offset + byteLength gap, offset + byteLength gap + byteLength lex⟩ ∧
      t.lexeme.Written lex ∧ t.Precedes rest := by
  unfold scan at h
  split at h
  · cases h
    cases he
  · next start c cs' hskip =>
    obtain ⟨gap, rfl, rfl, hgap⟩ := isTrivia_of_skipTrivia hskip
    obtain ⟨lex, rfl, hw, hspan, hp⟩ := scanToken_eq_ok_iff.mp h
    exact ⟨gap, c :: lex, by simp, hgap, by simp, hspan, hw, hp⟩

/-! ### What can be passed over -/

/-- A comment is passed over up to the line end that closes it. -/
theorem skipTrivia_comment {text : List Char} (htext : '\r' ∉ text ∧ '\n' ∉ text)
    (hc : c = '\r' ∨ c = '\n') (offset : Nat) (cs : List Char) :
    skipTrivia true offset (text ++ c :: cs) =
      skipTrivia false (offset + byteLength text + c.utf8Size) cs := by
  induction text generalizing offset with
  | nil => rw [List.nil_append, skipTrivia, if_pos rfl, isLineEnd_iff.mpr hc]; rfl
  | cons d text ih =>
    have hd : isLineEnd d = false := isLineEnd_of_notMem htext d List.mem_cons_self
    rw [List.cons_append, skipTrivia, if_pos rfl, hd, byteLength_cons, ← Nat.add_assoc]
    exact ih ⟨fun h => htext.1 (List.mem_cons_of_mem d h), fun h => htext.2 (List.mem_cons_of_mem d h)⟩ _

theorem skipTrivia_gap (h : IsGap false gap) (offset : Nat) (cs : List Char) :
    skipTrivia false offset (gap ++ cs) = skipTrivia false (offset + byteLength gap) cs := by
  induction h generalizing offset with
  | nil => rfl
  | @blank c gap hc h ih =>
    have hne : c ≠ '#' := by
      rintro rfl
      simp at hc
    rw [List.cons_append, skipTrivia, if_neg (by simp), if_neg hne,
      if_pos (by simp [isIgnored_iff.mpr hc]), ih, byteLength_cons, Nat.add_assoc]
  | @comment text c gap htext hc h ih =>
    have hsize : ('#' : Char).utf8Size = 1 := by decide
    rw [List.cons_append, List.append_assoc, List.cons_append, skipTrivia, if_neg (by simp),
      if_pos rfl, skipTrivia_comment htext hc, ih]
    congr 1
    simp only [byteLength_cons, byteLength_append, hsize]
    omega
  | openComment hlast => cases hlast

theorem scan_gap (h : IsGap false gap) (offset : Nat) (cs : List Char) :
    scan offset (gap ++ cs) = scan (offset + byteLength gap) cs := by
  rw [scan, skipTrivia_gap h, scan]

/-- A byte-order mark at the start of a text is passed over. -/
theorem scan_mark (cs : List Char) : scan 0 (byteOrderMark :: cs) = scan byteOrderMark.utf8Size cs := by
  have hskip : skipTrivia false 0 (byteOrderMark :: cs) = skipTrivia false byteOrderMark.utf8Size cs := by
    rw [skipTrivia, if_neg (by simp), if_neg (by decide), if_pos (by decide), Nat.zero_add]
  rw [scan, hskip, scan]

/-- No token starts with trivia. -/
theorem start_of_scanToken (h : scanToken offset c cs = .ok (t, rest)) :
    c ≠ '#' ∧ isIgnored c = false ∧ c ≠ byteOrderMark := by
  refine ⟨?_, ?_, scanToken_byteOrderMark h⟩
  · rintro rfl
    cases h
  · rw [← Bool.not_eq_true, isIgnored_iff]
    intro hc
    simp only [List.mem_cons, List.not_mem_nil, or_false] at hc
    rcases hc with rfl | rfl | rfl | rfl | rfl <;> cases h

theorem mem_of_isBlank (h : isBlank c = true) (hc : c.toNat ≤ 127) :
    c ∈ ['\t', '\n', '\x0b', '\x0c', '\r', ' '] := by
  simp [isBlank, inRanges, blankRanges] at h
  have hmem : c.toNat ∈ [9, 10, 11, 12, 13, 32] := by
    simp only [List.mem_cons, List.not_mem_nil, or_false]
    omega
  have hall : ∀ n ∈ [9, 10, 11, 12, 13, 32],
      Char.ofNat n ∈ ['\t', '\n', '\x0b', '\x0c', '\r', ' '] := by decide
  rw [← Char.ofNat_toNat c]
  exact hall _ hmem

/-- Tokens start with ASCII characters. -/
theorem ascii_of_scanToken (h : scanToken offset c cs = .ok (t, rest)) : c.toNat ≤ 127 := by
  obtain ⟨lex, -, hw, -⟩ := written_of_scanToken h
  generalize t.lexeme = l at hw
  generalize hlex : c :: lex = w at hw
  cases hw with
  | mark h =>
    cases hlex
    exact Token.Kind.ascii_of_ofChar? h
  | number h => exact Number.ascii_of_isNumber h c (by simp [← hlex])
  | name h =>
    obtain ⟨d, ds, rfl, hd, -⟩ := h
    cases hlex
    exact NameText.ascii_of_isPart (NameText.isPart_of_isStart hd)
  | _ =>
    cases hlex
    decide

theorem scanToken_blank (h : scanToken offset c cs = .ok (t, rest)) : isBlank c = false := by
  rw [← Bool.not_eq_true]
  intro hb
  have hmem := mem_of_isBlank hb (ascii_of_scanToken h)
  simp only [List.mem_cons, List.not_mem_nil, or_false] at hmem
  rcases hmem with rfl | rfl | rfl | rfl | rfl | rfl <;> cases h

theorem scan_of_start (hc : c ≠ '#') (hi : isIgnored c = false) (hb : c ≠ byteOrderMark)
    (offset : Nat) (cs : List Char) : scan offset (c :: cs) = scanToken offset c cs := by
  have hskip : skipTrivia false offset (c :: cs) = (offset, c :: cs) := by
    rw [skipTrivia, if_neg (by simp), if_neg hc, if_neg (by simp [hi, hb])]
  rw [scan, hskip]

theorem Lexeme.Written.ne_nil {l : Lexeme} (h : l.Written lex) : lex ≠ [] := by
  rintro rfl
  cases h with
  | number h =>
    obtain ⟨_, _, h, -⟩ := Number.start_of_isNumber h
    cases h
  | name h =>
    obtain ⟨_, _, h, -⟩ := h
    cases h

/-- What is written as a token is read as one, in front of a text that it can stand before. -/
theorem scan_of_written (h : t.lexeme.Written lex)
    (hspan : t.span = ⟨offset, offset + byteLength lex⟩) (hp : t.Precedes rest) :
    scan offset (lex ++ rest) = .ok (t, rest) := by
  obtain ⟨c, lex, rfl⟩ := List.exists_cons_of_ne_nil h.ne_nil
  have hscan := scanToken_of_written h hspan hp
  obtain ⟨hhash, hignored, hmark⟩ := start_of_scanToken hscan
  rw [List.cons_append, scan_of_start hhash hignored hmark, hscan]

end Trivia

/-! ### What tokens cover -/

section Cover
variable {s : Source} {offset offset' : Nat} {cs rest : List Char} {ts : List Token} {t : Token}

/-- A name or a number is written as its text. -/
theorem Token.eq_text_of_written (h : t.lexeme.Written cs)
    (hkind : t.kind ∈ [Token.Kind.name, .int, .float]) : cs = t.text.toList := by
  obtain ⟨l, s, rfl⟩ : ∃ (l : Lexeme) (s : Span), t = ⟨l.1, l.2, s⟩ := ⟨t.lexeme, t.span, rfl⟩
  change l.Written cs at h
  cases h with
  | @mark c k h =>
    have hmark := Token.Kind.isMark_of_ofChar? h
    have hk : k = .name ∨ k = .int ∨ k = .float := by simpa using hkind
    rcases hk with rfl | rfl | rfl <;> cases hmark
  | spread => simp at hkind
  | string => simp at hkind
  | blockString => simp at hkind
  | number | name => simp [Token.text]

/-- **A token of a text covers a stretch of it that it is written with.** -/
theorem Scans.exists_written (h : Scans offset cs ts offset' rest) (hs : s.TextFrom offset cs)
    (ht : t ∈ ts) : ∃ text, s.slice? t.span = some text ∧ t.lexeme.Written text.toList := by
  induction h with
  | nil => cases ht
  | @cons offset offset' cs rest rest' u ts h he _ ih =>
    rcases List.mem_cons.mp ht with rfl | ht
    · obtain ⟨gap, lex, rfl, -, -, hspan, hw, -⟩ := scan_written h he
      rw [List.append_assoc] at hs
      have hslice := hs.append.slice
      rw [← hspan] at hslice
      exact ⟨String.ofList lex, hslice, by rwa [String.toList_ofList]⟩
    · exact ih ((Scans.cons h he (.nil _ _)).textFrom hs) ht

/-- **A name or a number covers its text.** -/
theorem Source.slice?_of_scans (h : Scans 0 s.chars ts offset' rest) (ht : t ∈ ts)
    (hkind : t.kind ∈ [Token.Kind.name, .int, .float]) : s.slice? t.span = some t.text := by
  obtain ⟨text, hslice, hw⟩ := h.exists_written s.textFrom_zero ht
  rw [hslice, String.toList_injective (Token.eq_text_of_written hw hkind)]

end Cover

end QueryDocs
