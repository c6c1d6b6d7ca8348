import QueryDocs.Proofs.Document.Lexemes
import QueryDocs.Proofs.Tokens.Comments

/-! # Reading printed pieces

Pieces are laid out for tokens (`Prints`) if blanks and marks separate the tokens that would
otherwise run into each other. The text of such pieces is read as these tokens, where block strings
that could not be read back are in double quotes, and it has no comments (`Prints.remarks`). -/

namespace QueryDocs

open QueryDocs.Layout QueryDocs.Text

/-! ### Pieces for tokens -/

/-- Pieces that can stand right behind any token. -/
def Led : List Piece → Prop
  | [] => True
  | .blank _ :: _ => True
  | .mark k :: _ => k ≠ .spread
  | _ => False

/-- Pieces are laid out for tokens. -/
inductive Prints : List Piece → List Lexeme → Prop where
  | nil : Prints [] []
  | blank {text : String} {ps : List Piece} {ls : List Lexeme} (hne : text.toList ≠ [])
      (h : ∀ c ∈ text.toList, isIgnored c = true) (hs : Prints ps ls) :
      Prints (.blank text :: ps) ls
  | mark {k : Token.Kind} {ps : List Piece} {ls : List Lexeme} (hs : Prints ps ls) :
      Prints (.mark k :: ps) (Lexeme.mark k :: ls)
  | word {w : String} {ps : List Piece} {ls : List Lexeme} (hs : Prints ps ls) (hl : Led ps) :
      Prints (.word w :: ps) (Lexeme.word w :: ls)
  | int {w : String} {ps : List Piece} {ls : List Lexeme} (hs : Prints ps ls) (hl : Led ps) :
      Prints (.int w :: ps) ((.int, some w) :: ls)
  | float {w : String} {ps : List Piece} {ls : List Lexeme} (hs : Prints ps ls) (hl : Led ps) :
      Prints (.float w :: ps) ((.float, some w) :: ls)
  | string {margin : List Char} {v : StringValue} {ps : List Piece} {ls : List Lexeme}
      (hm : ∀ c ∈ margin, Block.isIndent c = true) (hs : Prints ps ls) (hl : Led ps) :
      Prints (.string (.choose margin v.block v.text.toList) v.text :: ps) (v.lexeme :: ls)

section Prints
variable {ps qs : List Piece} {ls ms : List Lexeme}

theorem Prints.ignored {text : String} (hne : text.toList ≠ [])
    (h : text.toList.all isIgnored = true) (hs : Prints ps ls) : Prints (.blank text :: ps) ls :=
  .blank hne (List.all_eq_true.mp h) hs

theorem Led.append (h : Led ps) (h' : Led qs) : Led (ps ++ qs) := by
  cases ps with
  | nil => exact h'
  | cons p ps => cases p <;> exact h

theorem Prints.append (h : Prints ps ls) (h' : Prints qs ms) (hq : Led qs) :
    Prints (ps ++ qs) (ls ++ ms) := by
  induction h with
  | nil => exact h'
  | blank hne h _ ih => exact .blank hne h ih
  | mark _ ih => exact .mark ih
  | word _ hl ih => exact .word ih (hl.append hq)
  | int _ hl ih => exact .int ih (hl.append hq)
  | float _ hl ih => exact .float ih (hl.append hq)
  | string hm _ hl ih => exact .string hm ih (hl.append hq)

/-! ### What stands behind a token -/

/-- Whether a character ends every token. -/
def isSoft (c : Char) : Bool := isIgnored c || (Token.Kind.ofChar? c).isSome

theorem stops_of_soft {p : Char → Bool} {cs : List Char} (h : ∀ c ∈ cs.head?, isSoft c = true)
    (hp : ∀ c, p c = true → isSoft c = false) : Stops p cs := by
  intro c hc
  by_contra hne
  have := hp c (by simpa using hne)
  rw [h c hc] at this
  cases this

theorem not_isSoft_of_isPart {c : Char} (h : NameText.isPart c = true) : isSoft c = false := by
  have hne : ∀ d : Char, NameText.isPart d = false → c ≠ d := by
    rintro d hd rfl
    rw [h] at hd
    cases hd
  simp [isSoft, isIgnored, isLineEnd, Token.Kind.ofChar?_of_isPart h, hne ' ' (by decide),
    hne '\t' (by decide), hne ',' (by decide), hne '\n' (by decide), hne '\r' (by decide)]

theorem not_isSoft_of_continues {c : Char} (h : Number.continues c = true) : isSoft c = false := by
  simp only [Number.continues, Bool.or_eq_true, beq_iff_eq] at h
  rcases h with (h | rfl) | h
  · exact not_isSoft_of_isPart (NameText.isPart_of_isDigit h)
  · rfl
  · exact not_isSoft_of_isPart (NameText.isPart_of_isStart h)

theorem chars_mark {k : Token.Kind} (hk : k.isMark = true) :
    (∃ c, Token.Kind.ofChar? c = some k ∧ (Piece.mark k).chars = [c]) ∨
      k = .spread ∧ (Piece.mark k).chars = ['.', '.', '.'] := by
  cases k with
  | bang => exact Or.inl ⟨'!', rfl, rfl⟩
  | dollar => exact Or.inl ⟨'$', rfl, rfl⟩
  | leftParen => exact Or.inl ⟨'(', rfl, rfl⟩
  | rightParen => exact Or.inl ⟨')', rfl, rfl⟩
  | spread => exact Or.inr ⟨rfl, rfl⟩
  | colon => exact Or.inl ⟨':', rfl, rfl⟩
  | equals => exact Or.inl ⟨'=', rfl, rfl⟩
  | atSign => exact Or.inl ⟨'@', rfl, rfl⟩
  | leftBracket => exact Or.inl ⟨'[', rfl, rfl⟩
  | rightBracket => exact Or.inl ⟨']', rfl, rfl⟩
  | leftBrace => exact Or.inl ⟨'\x7b', rfl, rfl⟩
  | pipe => exact Or.inl ⟨'|', rfl, rfl⟩
  | rightBrace => exact Or.inl ⟨'\x7d', rfl, rfl⟩
  | _ => cases hk

theorem soft_of_led (h : Prints ps ls) (hv : ∀ l ∈ ls, l.Valid) (hl : Led ps) :
    ∀ c ∈ (ps.flatMap Piece.chars).head?, isSoft c = true := by
  cases h with
  | nil => simp
  | @blank text ps ls hne h _ =>
    obtain ⟨c, cs, hc⟩ := List.exists_cons_of_ne_nil hne
    simp [Piece.chars, hc, isSoft, h c (by simp [hc])]
  | @mark k ps ls _ =>
    have hk : k.isMark = true := by
      have := hv (Lexeme.mark k) (by simp)
      cases k <;> exact this
    rcases chars_mark hk with ⟨c, hc, hchars⟩ | ⟨rfl, -⟩
    · simp [hchars, isSoft, hc]
    · exact absurd rfl hl
  | word => cases hl
  | int => cases hl
  | float => cases hl
  | string => cases hl

/-! ### Reading -/

/-- A text is read as one token from its first character on, and the rest of it is left. -/
def ScansAs (offset : Nat) (cs : List Char) (l : Lexeme) (rest : List Char) : Prop :=
  ∃ t, scan offset cs = .ok (t, rest) ∧ t.lexeme = l ∧ t.span.start = offset

/-- What is written as a token is read as one, in front of a text that such a token precedes. -/
theorem scansAs_of_written {l : Lexeme} {lex rest : List Char} (h : l.Written lex) (offset : Nat)
    (hp : ∀ span, Token.Precedes ⟨l.1, l.2, span⟩ rest) : ScansAs offset (lex ++ rest) l rest := by
  let t : Token := ⟨l.1, l.2, ⟨offset, offset + byteLength lex⟩⟩
  exact ⟨t, @scan_of_written offset lex rest t h rfl (hp _), rfl, rfl⟩

theorem scansAs_mark {k : Token.Kind} (hk : k.isMark = true) (offset : Nat) (rest : List Char) :
    ScansAs offset ((Piece.mark k).chars ++ rest) (Lexeme.mark k) rest := by
  have hw : (Lexeme.mark k).Written (Piece.mark k).chars := by
    rcases chars_mark hk with ⟨c, hc, hchars⟩ | ⟨rfl, hchars⟩
    · rw [hchars]
      exact .mark hc
    · rw [hchars]
      exact .spread
  refine scansAs_of_written hw offset fun span => ?_
  cases k <;> trivial

theorem scansAs_word {w : String} (hw : NameText.IsName w.toList) (offset : Nat) {rest : List Char}
    (hs : Stops NameText.isPart rest) :
    ScansAs offset (w.toList ++ rest) (Lexeme.word w) rest := by
  have hname := Lexeme.Written.name hw
  rw [String.ofList_toList] at hname
  exact scansAs_of_written hname offset fun _ => hs

theorem scansAs_number {w : String} (hw : Number.IsNumber w.toList) (offset : Nat)
    {rest : List Char} (hs : Stops Number.continues rest) :
    ScansAs offset (w.toList ++ rest)
      (if Number.isFloat w.toList then .float else .int, some w) rest := by
  have hnumber := Lexeme.Written.number hw
  rw [String.ofList_toList] at hnumber
  refine scansAs_of_written hnumber offset fun span => ?_
  cases Number.isFloat w.toList <;> exact hs

theorem written_quoted (text : String) :
    Lexeme.Written (.string, some text) (literal .quoted text.toList) := by
  have hstring := Lexeme.Written.string (Quoted.spells_flatMap_quotedChar text.toList)
  rwa [String.ofList_toList] at hstring

theorem written_block {text raw : List Char} (hraw : ∀ c ∈ raw, Block.IsContent c)
    (hend : ∀ c ∈ raw.getLast?, c ≠ '"' ∧ c ≠ '\\') (hvalue : Block.value raw = text) :
    Lexeme.Written (.blockString, some (String.ofList text))
      (Block.fence ++ blockText raw ++ Block.fence) := by
  have hblock : Lexeme.Written (.blockString, some (String.ofList (Block.value raw)))
      ('"' :: '"' :: '"' :: (blockText raw ++ Block.fence)) :=
    .blockString fun _ _ _ => Block.body_escaped hraw hend
  rwa [hvalue] at hblock

/-- Where a value is written as a block string, its text has no control characters. -/
def StringValue.Readable (v : StringValue) : Prop :=
  v.block = true → (fitsOneLine v.text.toList || fitsLines v.text.toList) = true →
    ∀ c ∈ v.text.toList, Block.IsContent c

theorem StringValue.readable_of_valid {v : StringValue} (h : v.lexeme.Valid) : v.Readable := by
  obtain ⟨text, block, span⟩ := v
  rintro rfl - c hc
  exact (h c hc).isContent

theorem written_string {margin : List Char} (hm : ∀ c ∈ margin, Block.isIndent c = true)
    {v : StringValue} (hv : v.Readable) :
    (relabel .print v.lexeme).Written
      (Piece.string (.choose margin v.block v.text.toList) v.text).chars := by
  obtain ⟨text, block, span⟩ := v
  cases block with
  | false => exact written_quoted text
  | true =>
    have hprint : relabel .print (StringValue.lexeme ⟨text, true, span⟩) =
        (if fitsOneLine text.toList || fitsLines text.toList then .blockString else .string,
          some text) := rfl
    rw [hprint, Piece.chars, StringForm.choose]
    by_cases h1 : fitsOneLine text.toList = true
    · have hcontent : ∀ c ∈ text.toList, Block.IsContent c := hv rfl (by simp [h1])
      have := written_block hcontent (Block.endsClear_of_fitsOneLine h1) (Block.value_oneLine h1)
      simpa [h1, literal] using this
    · by_cases h2 : fitsLines text.toList = true
      · have hr : '\r' ∉ text.toList := by
          intro hr
          simp [fitsLines, hr] at h2
        have hcontent : ∀ c ∈ text.toList, Block.IsContent c := hv rfl (by simp [h2])
        have := written_block (Block.isContent_contents hm hcontent hr) (Block.getLast_contents hm)
          (Block.value_lines hm h2)
        rw [← Block.literal_lines hm] at this
        simpa [h1, h2] using this
      · simpa [h1, h2] using written_quoted text

theorem StringValue.exists_lexeme_print (v : StringValue) :
    ∃ k, (k = .string ∨ k = .blockString) ∧ relabel .print v.lexeme = (k, some v.text) := by
  obtain ⟨text, block, span⟩ := v
  cases block with
  | false => exact ⟨.string, Or.inl rfl, rfl⟩
  | true =>
    refine ⟨if fitsOneLine text.toList || fitsLines text.toList then .blockString else .string, ?_, rfl⟩
    split
    · exact Or.inr rfl
    · exact Or.inl rfl

theorem precedes_of_string {k : Token.Kind} (hk : k = .string ∨ k = .blockString) {rest : List Char}
    (hs : Stops (· == '"') rest) (value : Option String) (span : Span) :
    Token.Precedes ⟨k, value, span⟩ rest := by
  rcases hk with rfl | rfl
  · exact fun _ => hs
  · trivial

theorem scansAs_string {margin : List Char} (hm : ∀ c ∈ margin, Block.isIndent c = true)
    {v : StringValue} (hv : v.lexeme.Valid) (offset : Nat) {rest : List Char}
    (hs : Stops (· == '"') rest) :
    ScansAs offset
      ((Piece.string (.choose margin v.block v.text.toList) v.text).chars ++ rest)
      (relabel .print v.lexeme) rest := by
  obtain ⟨k, hk, hl⟩ := v.exists_lexeme_print
  refine scansAs_of_written (written_string hm (StringValue.readable_of_valid hv)) offset fun span => ?_
  rw [hl]
  exact precedes_of_string hk hs _ span

/-- The first of several pieces is read as one token, and the others as they are on their own. -/
theorem remarks_cons {p : Piece} {l : Lexeme} {offset : Nat} (hl : l.Valid)
    (hp : ScansAs offset (p.chars ++ ps.flatMap Piece.chars) (relabel .print l)
      (ps.flatMap Piece.chars))
    (ih : ∀ offset, ∃ ts, Remarks offset (ps.flatMap Piece.chars) ts [] ∧
      ts.map Token.lexeme = ls.map (relabel .print)) :
    ∃ ts, Remarks offset ((p :: ps).flatMap Piece.chars) ts [] ∧
      ts.map Token.lexeme = (l :: ls).map (relabel .print) := by
  obtain ⟨t, ht, htl, hstart⟩ := hp
  obtain ⟨ts, hts, hls⟩ := ih t.span.stop
  have he : t.isEnd = false := Token.isEnd_eq_false_of_valid (htl ▸ hl.relabel _)
  have hremarks := Remarks.token ht he hts
  rw [triviaComments_of_scan ht he hstart] at hremarks
  exact ⟨t :: ts, hremarks, by simp [htl, hls]⟩

/-- **The text of pieces is read as the tokens they are laid out for**, and it has no comments. -/
theorem Prints.remarks (h : Prints ps ls) (hv : ∀ l ∈ ls, l.Valid) (offset : Nat) :
    ∃ ts, Remarks offset (ps.flatMap Piece.chars) ts [] ∧
      ts.map Token.lexeme = ls.map (relabel .print) := by
  have hpart : ∀ c, NameText.isPart c = true → isSoft c = false :=
    fun c hc => not_isSoft_of_isPart hc
  have hcontinues : ∀ c, Number.continues c = true → isSoft c = false :=
    fun c hc => not_isSoft_of_continues hc
  have hquote : ∀ c : Char, (c == '"') = true → isSoft c = false := by
    intro c hc
    rw [beq_iff_eq.mp hc]
    rfl
  induction h generalizing offset with
  | nil => exact ⟨[], .finish rfl rfl, rfl⟩
  | blank hne h hs ih =>
    obtain ⟨ts, ht, hl⟩ := ih hv (offset + byteLength _)
    have hremarks := ht.of_trivia (Or.inl (isGap_of_ignored h))
    rw [triviaComments_of_ignored h] at hremarks
    exact ⟨ts, hremarks, hl⟩
  | @mark k ps ls hs ih =>
    obtain ⟨hl, hls⟩ := List.forall_mem_cons.mp hv
    have hk : k.isMark = true := by cases k <;> exact hl
    exact remarks_cons hl (by rw [relabel_mark]; exact scansAs_mark hk _ _) (ih hls)
  | word hs hl ih =>
    obtain ⟨hw, hls⟩ := List.forall_mem_cons.mp hv
    have hsoft := soft_of_led hs hls hl
    exact remarks_cons hw (scansAs_word hw _ (stops_of_soft hsoft hpart)) (ih hls)
  | int hs hl ih =>
    obtain ⟨hw, hls⟩ := List.forall_mem_cons.mp hv
    have hsoft := soft_of_led hs hls hl
    obtain ⟨hn, hf⟩ := Number.isInt_iff.mp hw
    have := scansAs_number hn offset (stops_of_soft hsoft hcontinues)
    rw [hf] at this
    exact remarks_cons hw this (ih hls)
  | float hs hl ih =>
    obtain ⟨hw, hls⟩ := List.forall_mem_cons.mp hv
    have hsoft := soft_of_led hs hls hl
    obtain ⟨hn, hf⟩ := Number.isFloat_iff.mp hw
    have := scansAs_number hn offset (stops_of_soft hsoft hcontinues)
    rw [hf] at this
    exact remarks_cons hw this (ih hls)
  | string hm hs hl ih =>
    obtain ⟨hw, hls⟩ := List.forall_mem_cons.mp hv
    have hsoft := soft_of_led hs hls hl
    exact remarks_cons hw (scansAs_string hm hw _ (stops_of_soft hsoft hquote)) (ih hls)

theorem Prints.tokenizes (h : Prints ps ls) (hv : ∀ l ∈ ls, l.Valid) (offset : Nat) :
    ∃ ts last, Tokenizes offset (ps.flatMap Piece.chars) ts last ∧
      ts.map Token.lexeme = ls.map (relabel .print) := by
  obtain ⟨ts, hremarks, hls⟩ := h.remarks hv offset
  obtain ⟨last, htokens⟩ := hremarks.exists_tokenizes
  exact ⟨ts, last, htokens, hls⟩

end Prints

end QueryDocs
