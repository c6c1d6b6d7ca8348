import Mathlib.Data.List.Basic
import QueryDocs.Layout.Piece
import QueryDocs.Proofs.Tokens.Boundary

/-! # Block strings

What is read after the opening quotes depends on the text up to the closing quotes alone
(`body_append`). A text is the value of a block string on one line if `fitsOneLine`
(`value_oneLine`), and of one whose lines stand behind a margin if `fitsLines` (`value_lines`). -/

namespace QueryDocs.Block

open QueryDocs.Text QueryDocs.Layout

/-! ### Reading up to the closing quotes -/

/-- A character that can stand in a block string. -/
def IsContent (c : Char) : Prop := 0x20 ≤ c.toNat ∨ c = '\t' ∨ c = '\n' ∨ c = '\r'

instance (c : Char) : Decidable (IsContent c) := inferInstanceAs (Decidable (_ ∨ _ ∨ _ ∨ _))

/-- A character that can stand in the value of a block string. -/
def IsValueChar (c : Char) : Prop := 0x20 ≤ c.toNat ∨ c = '\t' ∨ c = '\n'

theorem IsValueChar.isContent {c : Char} (h : IsValueChar c) : IsContent c := by
  rcases h with h | h | h
  · exact Or.inl h
  · exact Or.inr (Or.inl h)
  · exact Or.inr (Or.inr (Or.inl h))

theorem not_control {c : Char} (h : IsContent c) :
    ¬ (c.toNat < 0x20 ∧ c ≠ '\t' ∧ c ≠ '\n' ∧ c ≠ '\r') := by
  rintro ⟨h1, h2, h3, h4⟩
  rcases h with h | h | h | h
  · omega
  · exact h2 h
  · exact h3 h
  · exact h4 h

theorem byteLength_fence_append (cs : List Char) : byteLength (fence ++ cs) = 3 + byteLength cs := by
  rw [byteLength_append, show byteLength fence = 3 from rfl]

variable {opening offset stop : Nat} {acc v rest : List Char}

theorem body_cons {c : Char} {cs : List Char} (hf : ¬ fence <+: c :: cs)
    (he : c = '\\' → ¬ fence <+: cs) (hc : IsContent c) :
    body opening acc offset (c :: cs) = body opening (c :: acc) (offset + c.utf8Size) cs := by
  rw [body]
  · rw [if_neg (not_control hc)]
  · rintro cs' h rfl
    exact hf ⟨cs', by rw [h]; rfl⟩
  · rintro cs' h rfl
    exact he h ⟨cs', rfl⟩

/-- A control character cannot stand in a block string. -/
theorem body_of_not_content {c : Char} {cs : List Char} (hc : ¬ IsContent c) :
    body opening acc offset (c :: cs) = .error ⟨.unexpectedCharacter c, offset⟩ := by
  rw [body]
  · rw [IsContent, not_or, not_or, not_or] at hc
    rw [if_pos ⟨by omega, hc.2⟩]
  · rintro _ rfl
    exact fun _ => hc (Or.inl (by decide))
  · rintro _ rfl
    exact fun _ => hc (Or.inl (by decide))

theorem prefix_append_iff {as bs cs : List Char} (h : as.length ≤ bs.length) :
    as <+: bs ++ cs ↔ as <+: bs :=
  ⟨fun hp => List.prefix_of_prefix_length_le hp (List.prefix_append bs cs) h,
    fun hp => hp.trans (List.prefix_append bs cs)⟩

/-- A block string ends with its closing quotes: neither the text behind them nor the place where it
stands matters. -/
theorem body_append {cs : List Char} (h : body opening acc offset cs = .ok (v, stop, rest)) :
    ∃ u, cs = u ++ rest ∧ 3 ≤ u.length ∧ stop = offset + byteLength u ∧
      ∀ opening' offset' rest',
        body opening' acc offset' (u ++ rest') = .ok (v, offset' + byteLength u, rest') := by
  fun_induction body opening acc offset cs with
  | case1 => cases h
  | case2 => cases h; exact ⟨fence, rfl, by decide, rfl, fun _ _ _ => rfl⟩
  | case3 acc offset cs ih =>
    obtain ⟨u, rfl, -, rfl, hu⟩ := ih h
    have hlen : byteLength ('\\' :: (fence ++ u)) = 4 + byteLength u := by
      rw [byteLength_cons, byteLength_fence_append, show ('\\' : Char).utf8Size = 1 from rfl]
      omega
    refine ⟨'\\' :: (fence ++ u), rfl, by simp [fence], by rw [hlen, Nat.add_assoc],
      fun opening' offset' rest' => ?_⟩
    rw [hlen, ← Nat.add_assoc, ← hu opening' (offset' + 4) rest']
    rfl
  | case4 => cases h
  | case5 acc offset c cs hf he hc ih =>
    obtain ⟨u, rfl, hl, rfl, hu⟩ := ih h
    have hcon : IsContent c := by
      by_contra hn
      simp only [IsContent, not_or] at hn
      exact hc ⟨by omega, hn.2⟩
    have hf' : ¬ fence <+: c :: (u ++ rest) := by
      rintro ⟨cs', h'⟩
      obtain ⟨h1, h2⟩ := List.cons.inj h'
      exact hf cs' h1.symm h2.symm
    have he' : c = '\\' → ¬ fence <+: u ++ rest := by
      rintro rfl ⟨cs', h'⟩
      exact he cs' rfl h'.symm
    refine ⟨c :: u, rfl, by simp; omega, by simp; omega, fun opening' offset' rest' => ?_⟩
    rw [List.cons_append, body_cons ?_ ?_ hcon, hu, byteLength_cons, Nat.add_assoc]
    · rw [← List.cons_append, prefix_append_iff (by simp [fence]; omega)] at hf' ⊢
      exact hf'
    · intro h
      have := he' h
      rw [prefix_append_iff (by simpa [fence] using hl)] at this ⊢
      exact this

theorem isContent_of_body {cs : List Char} (h : body opening acc offset cs = .ok (v, stop, rest))
    (ha : ∀ c ∈ acc, IsContent c) : ∀ c ∈ v, IsContent c := by
  fun_induction body opening acc offset cs with
  | case1 => cases h
  | case2 => cases h; simpa using ha
  | case3 acc offset cs ih =>
    refine ih h fun c hc => ?_
    rcases List.mem_append.mp hc with hc | hc
    · refine Or.inl ?_
      simp only [fence, List.mem_cons, List.not_mem_nil, or_false, or_self] at hc
      subst hc
      decide
    · exact ha c hc
  | case4 => cases h
  | case5 acc offset c cs hf he hc ih =>
    refine ih h fun d hd => ?_
    rcases List.mem_cons.mp hd with rfl | hd
    · by_contra hn
      simp only [IsContent, not_or] at hn
      exact hc ⟨by omega, hn.2⟩
    · exact ha d hd

/-! ### Reading an escaped text -/

/-- A text does not run into the quotes behind it. -/
def EndsClear (text k : List Char) : Prop :=
  ∀ c ∈ text.getLast?, k.head? = some '"' → c ≠ '"' ∧ c ≠ '\\'

theorem EndsClear.tail {c : Char} {cs k : List Char} (h : EndsClear (c :: cs) k) :
    EndsClear cs k := by
  intro d hd
  refine h d ?_
  cases cs with
  | nil => simp at hd
  | cons e cs => simpa using hd

theorem blockText_cons {c : Char} {cs : List Char} (h : ¬ fence <+: c :: cs) :
    blockText (c :: cs) = c :: blockText cs := by
  rw [blockText]
  rintro cs' rfl rfl
  exact h ⟨cs', rfl⟩

/-- An escaped text starts with a quote only if the text itself does. -/
theorem head_quote {text k r : List Char} (h : EndsClear text k)
    (hq : blockText text ++ k = '"' :: r) :
    text = [] ∨ ∃ t, text = '"' :: t ∧ r = blockText t ++ k ∧ EndsClear t k := by
  cases text with
  | nil => exact Or.inl rfl
  | cons c cs =>
    by_cases hf : fence <+: c :: cs
    · obtain ⟨cs', hcs⟩ := hf
      rw [← hcs, blockText_fence] at hq
      cases hq
    · rw [blockText_cons hf, List.cons_append, List.cons.injEq] at hq
      exact Or.inr ⟨cs, by rw [hq.1], hq.2.symm, h.tail⟩

/-- In an escaped text three quotes never stand together. -/
theorem not_fence_prefix {text k : List Char} (hne : text ≠ []) (h : EndsClear text k)
    (hf : ¬ fence <+: text) : ¬ fence <+: blockText text ++ k := by
  rintro ⟨r, hr⟩
  have hlast : ∀ {l : List Char}, l ++ ['"'] = text → k.head? = some '"' → False := by
    rintro l rfl hk
    exact (h '"' (by simp) hk).1 rfl
  obtain rfl | ⟨t, rfl, hr, h₁⟩ := head_quote h hr.symm
  · exact hne rfl
  obtain rfl | ⟨t, rfl, hr, h₂⟩ := head_quote h₁ hr.symm
  · exact hlast (l := []) rfl (by simpa [blockText] using congrArg List.head? hr.symm)
  obtain rfl | ⟨t, rfl, -, -⟩ := head_quote h₂ hr.symm
  · exact hlast (l := ['"']) rfl (by simpa [blockText] using congrArg List.head? hr.symm)
  · exact hf ⟨t, rfl⟩

theorem not_fence_prefix_of_backslash {cs k : List Char} (h : EndsClear ('\\' :: cs) k) :
    ¬ fence <+: blockText cs ++ k := by
  cases cs with
  | nil =>
    rintro ⟨r, hr⟩
    exact (h '\\' (by simp) (by simpa [blockText, fence] using congrArg List.head? hr.symm)).2 rfl
  | cons c cs =>
    by_cases hf : fence <+: c :: cs
    · obtain ⟨cs', hcs⟩ := hf
      rw [← hcs, blockText_fence]
      rintro ⟨r, hr⟩
      cases hr
    · exact not_fence_prefix (by simp) h.tail hf

theorem mem_blockText {text : List Char} {c : Char} (h : c ∈ blockText text) :
    c = '\\' ∨ c ∈ text := by
  induction text using blockText.induct with
  | case1 => exact Or.inr h
  | case2 cs ih =>
    rw [blockText] at h
    simp only [List.mem_cons] at h ⊢
    tauto
  | case3 d cs hf ih =>
    rw [blockText] at h
    · simp only [List.mem_cons] at h ⊢
      tauto
    · exact hf

theorem body_blockText : ∀ {text k : List Char} {opening offset : Nat} {acc : List Char},
    (∀ c ∈ text, IsContent c) → EndsClear text k →
    body opening acc offset (blockText text ++ k) =
      body opening (text.reverse ++ acc) (offset + byteLength (blockText text)) k := by
  intro text
  induction text using blockText.induct with
  | case1 => intros; simp [blockText]
  | case2 cs ih =>
    intro k opening offset acc hc h
    have h' : EndsClear cs k := h.tail.tail.tail
    rw [blockText]
    simp only [List.cons_append]
    rw [body, ih (fun c hcs => hc c (by simp [hcs])) h']
    have : byteLength ('\\' :: '"' :: '"' :: '"' :: blockText cs) = 4 + byteLength (blockText cs) := by
      simp only [byteLength_cons, show ('\\' : Char).utf8Size = 1 from rfl,
        show ('"' : Char).utf8Size = 1 from rfl]
      omega
    rw [this, ← Nat.add_assoc]
    simp [fence]
  | case3 c cs hf ih =>
    intro k opening offset acc hc h
    have hf' : ¬ fence <+: c :: cs := by
      rintro ⟨t, ht⟩
      obtain ⟨h1, h2⟩ := List.cons.inj ht
      exact hf t h1.symm h2.symm
    have hb := not_fence_prefix (by simp) h hf'
    rw [blockText_cons hf', List.cons_append] at hb ⊢
    rw [body_cons hb ?_ (hc c (by simp)), ih (fun d hd => hc d (by simp [hd])) h.tail]
    · simp [Nat.add_assoc]
    · rintro rfl
      exact not_fence_prefix_of_backslash h

/-! ### Lines and indentation -/

/-- A text without line ends. -/
def IsLine (l : List Char) : Prop := ∀ c ∈ l, c ≠ '\n' ∧ c ≠ '\r'

theorem lines_ne_nil (cs : List Char) : lines cs ≠ [] := by
  fun_cases lines cs <;> simp

theorem lines_lineEnd {c : Char} {cs : List Char} (h : c = '\n' ∨ c = '\r')
    (hpair : ∀ ds, c = '\r' → cs = '\n' :: ds → False) : lines (c :: cs) = [] :: lines cs := by
  rw [lines]
  · rw [if_pos h]
  · exact hpair

theorem lines_cons {c : Char} {cs first : List Char} {rest : List (List Char)}
    (h : ¬ (c = '\n' ∨ c = '\r')) (hcs : lines cs = first :: rest) :
    lines (c :: cs) = (c :: first) :: rest := by
  rw [lines]
  · rw [if_neg h, hcs]
  · rintro _ rfl -
    exact h (Or.inr rfl)

/-- A text without line ends goes to the first line of the text behind it. -/
theorem lines_append_first {l cs first : List Char} {rest : List (List Char)} (h : IsLine l)
    (hcs : lines cs = first :: rest) : lines (l ++ cs) = (l ++ first) :: rest := by
  induction l with
  | nil => exact hcs
  | cons c l ih =>
    obtain ⟨hc, hl⟩ := List.forall_mem_cons.mp h
    exact lines_cons (by tauto) (ih hl)

theorem lines_line {l : List Char} (h : IsLine l) : lines l = [l] := by
  simpa using lines_append_first h (rfl : lines [] = [[]])

theorem lines_append {l cs : List Char} (h : IsLine l) : lines (l ++ '\n' :: cs) = l :: lines cs := by
  have hcs : lines ('\n' :: cs) = [] :: lines cs := lines_lineEnd (Or.inl rfl) (by simp)
  simpa using lines_append_first h hcs

theorem isLine_of_mem_lines {raw l : List Char} (h : l ∈ lines raw) :
    IsLine l ∧ ∀ c ∈ l, c ∈ raw := by
  fun_induction lines raw generalizing l with
  | case1 => simp at h; subst h; simp [IsLine]
  | case2 cs ih =>
    rcases List.mem_cons.mp h with rfl | h
    · simp [IsLine]
    · exact ⟨(ih h).1, fun c hc => by simp [(ih h).2 c hc]⟩
  | case3 c cs _ hc ih =>
    rcases List.mem_cons.mp h with rfl | h
    · simp [IsLine]
    · exact ⟨(ih h).1, fun c hc => by simp [(ih h).2 c hc]⟩
  | case4 c cs _ hc hl ih =>
    rw [List.mem_singleton] at h
    subst h
    exact ⟨fun d hd => by simpa [List.mem_singleton.mp hd] using hc, by simp⟩
  | case5 c cs _ hc line rest hl ih =>
    rw [hl] at ih
    rcases List.mem_cons.mp h with rfl | h
    · obtain ⟨h1, h2⟩ := ih (List.mem_cons_self ..)
      refine ⟨fun d hd => ?_, fun d hd => ?_⟩
      · rcases List.mem_cons.mp hd with rfl | hd
        · simpa using hc
        · exact h1 d hd
      · rcases List.mem_cons.mp hd with rfl | hd
        · simp
        · simp [h2 d hd]
    · obtain ⟨h1, h2⟩ := ih (List.mem_cons_of_mem _ h)
      exact ⟨h1, fun c hc => by simp [h2 c hc]⟩

theorem mem_of_mem_trimBlankLines {l : List Char} {ls : List (List Char)} (h : l ∈ trimBlankLines ls) :
    l ∈ ls := by
  rw [trimBlankLines, List.mem_reverse] at h
  have := (List.dropWhile_sublist _).subset h
  rw [List.mem_reverse] at this
  exact (List.dropWhile_sublist _).subset this

/-- Lines are made shorter at their start. -/
theorem suffix_of_mem_dedent {l : List Char} {ls : List (List Char)} (h : l ∈ dedent ls) :
    ∃ l' ∈ ls, l <:+ l' := by
  cases ls with
  | nil => cases h
  | cons first rest =>
    rcases List.mem_cons.mp h with rfl | h
    · exact ⟨l, List.mem_cons_self, List.suffix_rfl⟩
    · obtain ⟨l', hl', rfl⟩ := List.mem_map.mp h
      exact ⟨l', List.mem_cons_of_mem _ hl', List.drop_suffix _ _⟩

/-- The lines of the value are ends of lines of the text. -/
theorem suffix_of_mem_value {raw l : List Char} (h : l ∈ trimBlankLines (dedent (lines raw))) :
    IsLine l ∧ ∃ l' ∈ lines raw, l <:+ l' := by
  obtain ⟨l', hl', hsuffix⟩ := suffix_of_mem_dedent (mem_of_mem_trimBlankLines h)
  exact ⟨fun c hc => (isLine_of_mem_lines hl').1 c (hsuffix.subset hc), l', hl', hsuffix⟩

theorem mem_intercalate {c : Char} {ls : List (List Char)} (h : c ∈ ['\n'].intercalate ls) :
    c = '\n' ∨ ∃ l ∈ ls, c ∈ l := by
  induction ls with
  | nil => simp at h
  | cons l ls ih =>
    cases ls with
    | nil => exact Or.inr ⟨l, List.mem_cons_self, by simpa using h⟩
    | cons l' ls =>
      rw [List.intercalate_cons_cons, List.mem_append, List.mem_append, List.mem_singleton] at h
      rcases h with (h | h) | h
      · exact Or.inr ⟨l, List.mem_cons_self, h⟩
      · exact Or.inl h
      · exact (ih h).imp_right fun ⟨l, hl, hc⟩ => ⟨l, List.mem_cons_of_mem _ hl, hc⟩

/-- Line feeds are the only line ends of the value. -/
theorem mem_value {raw : List Char} {c : Char} (h : c ∈ value raw) :
    c = '\n' ∨ c ∈ raw ∧ c ≠ '\n' ∧ c ≠ '\r' := by
  refine (mem_intercalate h).imp_right ?_
  rintro ⟨l, hl, hc⟩
  obtain ⟨hline, l', hl', hsuffix⟩ := suffix_of_mem_value hl
  exact ⟨(isLine_of_mem_lines hl').2 c (hsuffix.subset hc), hline c hc⟩

theorem isValueChar_of_value {raw : List Char} (h : ∀ c ∈ raw, IsContent c) :
    ∀ c ∈ value raw, IsValueChar c := by
  intro c hc
  rcases mem_value hc with rfl | ⟨hraw, -, hr⟩
  · exact Or.inr (Or.inr rfl)
  · rcases h c hraw with h | h | h | h
    · exact Or.inl h
    · exact Or.inr (Or.inl h)
    · exact Or.inr (Or.inr h)
    · exact absurd h hr

/-- The common indentation is the least one of the lines that are not blank. -/
theorem commonIndentation_eq_iff {ls : List (List Char)} {n : Nat}
    (h : ∃ l ∈ ls, isBlankLine l = false) : commonIndentation ls = n ↔ (∃ l ∈ ls, isBlankLine l = false ∧ indentation l = n) ∧
      ∀ l ∈ ls, isBlankLine l = false → n ≤ indentation l := by
  obtain ⟨l, hl, hne⟩ := h
  have hmem : indentation l ∈ (ls.filter fun l => !isBlankLine l).map indentation :=
    List.mem_map_of_mem (List.mem_filter.mpr ⟨hl, by simp [hne]⟩)
  obtain ⟨k, hk⟩ := Option.isSome_iff_exists.mp (List.isSome_min?_of_mem hmem)
  have hiff : commonIndentation ls = n ↔
      ((ls.filter fun l => !isBlankLine l).map indentation).min? = some n := by
    rw [commonIndentation, hk, Option.getD_some, Option.some_inj]
  rw [hiff, List.min?_eq_some_iff]
  simp only [List.mem_map, List.mem_filter, Bool.not_eq_true', forall_exists_index, and_imp, and_assoc]
  refine and_congr_right fun _ => ⟨fun h l hl hne => h _ l hl hne rfl, ?_⟩
  rintro h _ l hl hne rfl
  exact h l hl hne

/-- Blank lines do not count for the common indentation. -/
theorem commonIndentation_append_blank {ls bs : List (List Char)} (h : ∀ b ∈ bs, isBlankLine b = true) :
    commonIndentation (ls ++ bs) = commonIndentation ls := by
  have hfilter : bs.filter (fun l => !isBlankLine l) = [] :=
    List.filter_eq_nil_iff.mpr fun b hb => by simp [h b hb]
  rw [commonIndentation, List.filter_append, hfilter, List.append_nil, commonIndentation]

/-! ### Lines behind a margin -/

theorem splitLines_ne_nil (text : List Char) : splitLines text ≠ [] := by
  fun_cases splitLines text <;> simp_all

theorem intercalate_splitLines (text : List Char) : ['\n'].intercalate (splitLines text) = text := by
  fun_induction splitLines text with
  | case1 => rfl
  | case2 cs ih => rw [List.intercalate_cons_of_ne_nil (splitLines_ne_nil cs), ih]; rfl
  | case3 c cs hc hl => exact absurd hl (splitLines_ne_nil cs)
  | case4 c cs hc line rest hl ih =>
    rw [hl] at ih
    rw [← ih]
    cases rest with
    | nil => simp
    | cons l rest => simp [List.intercalate_cons_cons]

theorem isLine_of_mem_splitLines {text l : List Char} (h : l ∈ splitLines text)
    (hr : '\r' ∉ text) : IsLine l ∧ ∀ c ∈ l, c ∈ text := by
  fun_induction splitLines text generalizing l with
  | case1 => simp at h; subst h; simp [IsLine]
  | case2 cs ih =>
    rcases List.mem_cons.mp h with rfl | h
    · simp [IsLine]
    · obtain ⟨h1, h2⟩ := ih h (by simpa using hr)
      exact ⟨h1, fun c hc => by simp [h2 c hc]⟩
  | case3 c cs hc hl => exact absurd hl (splitLines_ne_nil cs)
  | case4 c cs hc line rest hl ih =>
    rw [hl] at ih
    rw [List.mem_cons, not_or] at hr
    rcases List.mem_cons.mp h with rfl | h
    · obtain ⟨h1, h2⟩ := ih (List.mem_cons_self ..) hr.2
      refine ⟨fun d hd => ?_, fun d hd => ?_⟩
      · rcases List.mem_cons.mp hd with rfl | hd
        · exact ⟨hc, Ne.symm hr.1⟩
        · exact h1 d hd
      · rcases List.mem_cons.mp hd with rfl | hd
        · simp
        · simp [h2 d hd]
    · obtain ⟨h1, h2⟩ := ih (List.mem_cons_of_mem _ h) hr.2
      exact ⟨h1, fun c hc => by simp [h2 c hc]⟩

/-- A line behind a margin; an empty line stays empty. -/
def indented (margin line : List Char) : List Char := if line.isEmpty then [] else margin ++ line

/-- The contents of a block string whose lines stand behind a margin. -/
def contents (margin : List Char) (ls : List (List Char)) : List Char :=
  ls.flatMap (fun l => '\n' :: indented margin l) ++ '\n' :: margin

section Margin
variable {margin : List Char} (hm : ∀ c ∈ margin, isIndent c = true)
include hm

theorem isLine_margin : IsLine margin := by
  intro c hc
  have := hm c hc
  simp only [isIndent, Bool.or_eq_true, beq_iff_eq] at this
  rcases this with rfl | rfl <;> decide

theorem isLine_indented {l : List Char} (hl : IsLine l) : IsLine (indented margin l) := by
  unfold indented
  split
  · simp [IsLine]
  · intro c hc
    rcases List.mem_append.mp hc with hc | hc
    · exact isLine_margin hm c hc
    · exact hl c hc

theorem lines_contents {x : List Char} (hx : IsLine x) {ls : List (List Char)}
    (hls : ∀ l ∈ ls, IsLine l) :
    lines (x ++ contents margin ls) = x :: ls.map (indented margin) ++ [margin] := by
  induction ls generalizing x with
  | nil =>
    rw [contents, List.flatMap_nil, List.nil_append, lines_append hx, lines_line (isLine_margin hm)]
    rfl
  | cons l ls ih =>
    have h := ih (isLine_indented hm (hls l (by simp))) fun l' hl' => hls l' (by simp [hl'])
    have hc : contents margin (l :: ls) = '\n' :: (indented margin l ++ contents margin ls) := by
      simp [contents]
    rw [hc, lines_append hx, h]
    rfl

theorem indentation_indented {l : List Char} (hl : isBlankLine l = false) :
    indentation (indented margin l) = margin.length + indentation l := by
  have hne : l.isEmpty = false := by
    cases l with
    | nil => cases hl
    | cons => rfl
  rw [indented, hne, if_neg (by simp), indentation, List.takeWhile_append_of_pos hm,
    List.length_append]
  rfl

theorem isBlankLine_indented (l : List Char) :
    isBlankLine (indented margin l) = isBlankLine l := by
  unfold indented isBlankLine
  split
  · next h => rw [List.isEmpty_iff.mp h]
  · have : margin.all isIndent = true := by simpa using hm
    rw [List.all_append, this, Bool.true_and]

/-- The margin is the common indentation if some line starts right behind it. -/
theorem commonIndentation_indented {ls : List (List Char)}
    (h : ∃ l ∈ ls, isBlankLine l = false ∧ indentation l = 0) :
    commonIndentation (ls.map (indented margin) ++ [margin]) = margin.length := by
  have hblank : ∀ l ∈ [margin], isBlankLine l = true := by simpa [isBlankLine] using hm
  obtain ⟨l, hl, hb, hz⟩ := h
  have hmem : indented margin l ∈ ls.map (indented margin) := List.mem_map_of_mem hl
  have hb' : isBlankLine (indented margin l) = false := by rw [isBlankLine_indented hm, hb]
  rw [commonIndentation_append_blank hblank, commonIndentation_eq_iff ⟨_, hmem, hb'⟩]
  refine ⟨⟨_, hmem, hb', by rw [indentation_indented hm hb, hz, Nat.add_zero]⟩, fun l' hl' hne => ?_⟩
  obtain ⟨l', -, rfl⟩ := List.mem_map.mp hl'
  rw [isBlankLine_indented hm] at hne
  rw [indentation_indented hm hne]
  exact Nat.le_add_right _ _

omit hm in
theorem drop_indented (l : List Char) : (indented margin l).drop margin.length = l := by
  unfold indented
  split
  · next h => rw [List.isEmpty_iff.mp h]; simp
  · simp

/-- Lines behind a margin are taken for the lines themselves. -/
theorem value_contents {ls : List (List Char)} (hls : ∀ l ∈ ls, IsLine l)
    (hf : ∀ l ∈ ls.head?, isBlankLine l = false) (hl : ∀ l ∈ ls.getLast?, isBlankLine l = false)
    (h : ∃ l ∈ ls, isBlankLine l = false ∧ indentation l = 0) :
    value (contents margin ls) = ['\n'].intercalate ls := by
  have hlines := lines_contents hm (x := []) (by simp [IsLine]) hls
  rw [List.nil_append] at hlines
  have hded : dedent (lines (contents margin ls)) = [] :: ls ++ [[]] := by
    rw [hlines, List.cons_append, dedent, commonIndentation_indented hm h, List.map_append,
      List.map_map]
    have : (fun l : List Char => l.drop margin.length) ∘ indented margin = id := by
      funext l
      exact drop_indented l
    rw [this]
    simp
  have htrim : trimBlankLines ([] :: ls ++ [[]]) = ls := by
    unfold trimBlankLines
    have h1 : ([] :: ls ++ [[]]).dropWhile isBlankLine = ls ++ [[]] := by
      rw [List.cons_append, List.dropWhile_cons_of_pos rfl]
      cases ls with
      | nil => obtain ⟨l, hl, -⟩ := h; cases hl
      | cons l ls =>
        rw [List.cons_append, List.dropWhile_cons_of_neg (by simp [hf l rfl])]
    have h2 : ls.reverse.dropWhile isBlankLine = ls.reverse := by
      rw [← List.head?_reverse] at hl
      cases hr : ls.reverse with
      | nil => rfl
      | cons l r =>
        rw [hr] at hl
        rw [List.dropWhile_cons_of_neg (by simp [hl l rfl])]
    rw [h1, List.reverse_append, List.reverse_singleton, List.singleton_append,
      List.dropWhile_cons_of_pos rfl, h2, List.reverse_reverse]
  rw [value, hded, htrim]

end Margin

/-! ### Literals -/

/-- Escaping a text does not reach over a character that is no quote. -/
theorem blockText_append_cons {c : Char} (hc : c ≠ '"') (l cs : List Char) :
    blockText (l ++ c :: cs) = blockText l ++ c :: blockText cs := by
  induction l using blockText.induct with
  | case1 => rw [List.nil_append, blockText_cons (by rintro ⟨t, ht⟩; cases ht; exact hc rfl)]; rfl
  | case2 l ih => simp only [List.cons_append, blockText, ih]
  | case3 d l hf ih =>
    have hf' : ¬ fence <+: d :: l := by
      rintro ⟨t, ht⟩
      obtain ⟨h1, h2⟩ := List.cons.inj ht
      exact hf t h1.symm h2.symm
    have hf'' : ¬ fence <+: d :: (l ++ c :: cs) := by
      rintro ⟨t, ht⟩
      obtain ⟨rfl, h2⟩ := List.cons.inj ht
      -- the character cannot be one of the three quotes
      rcases l with _ | ⟨d, _ | ⟨e, l⟩⟩
      · exact hc (List.cons.inj h2).1.symm
      · exact hc (List.cons.inj (List.cons.inj h2).2).1.symm
      · obtain ⟨rfl, h3⟩ := List.cons.inj h2
        obtain ⟨rfl, -⟩ := List.cons.inj h3
        exact hf' ⟨l, rfl⟩
    rw [blockText_cons hf', List.cons_append, blockText_cons hf'', ih, List.cons_append]

theorem blockText_newline (l cs : List Char) :
    blockText (l ++ '\n' :: cs) = blockText l ++ '\n' :: blockText cs :=
  blockText_append_cons (by decide) l cs

theorem blockText_of_no_quote {margin : List Char} (h : '"' ∉ margin) (cs : List Char) :
    blockText (margin ++ cs) = margin ++ blockText cs := by
  induction margin with
  | nil => rfl
  | cons c margin ih =>
    rw [List.mem_cons, not_or] at h
    rw [List.cons_append, blockText_cons ?_, ih h.2, List.cons_append]
    rintro ⟨t, ht⟩
    exact h.1 (List.cons.inj ht).1

section Literal
variable {text rest : List Char} {opening offset : Nat}

/-- A text is read back from an escaped block, up to the closing quotes. -/
theorem body_escaped (h : ∀ c ∈ text, IsContent c)
    (hend : ∀ c ∈ text.getLast?, c ≠ '"' ∧ c ≠ '\\') :
    body opening [] offset (blockText text ++ fence ++ rest) =
      .ok (text, offset + byteLength (blockText text ++ fence), rest) := by
  rw [List.append_assoc, body_blockText h fun c hc _ => hend c hc, body_fence, List.append_nil,
    List.reverse_reverse, byteLength_append, Nat.add_assoc]
  rfl

/-- An escaped text with control characters is not read back: reading stops at the first of them. -/
theorem body_escaped_control (h : ¬ ∀ c ∈ text, IsContent c) (opening offset : Nat) (rest : List Char) :
    ∃ before c after, blockText text = before ++ c :: after ∧ (∀ d ∈ before, IsContent d) ∧
      ¬ IsContent c ∧ body opening [] offset (blockText text ++ rest) =
        .error ⟨.unexpectedCharacter c, offset + byteLength before⟩ := by
  obtain ⟨d, hd⟩ := not_forall.mp h
  obtain ⟨hd, hcontrol⟩ := Classical.not_imp.mp hd
  obtain ⟨c, hfind⟩ := Option.isSome_iff_exists.mp
    (List.find?_isSome.mpr ⟨d, hd, by simpa using hcontrol⟩ : (text.find? (¬ IsContent ·)).isSome)
  obtain ⟨hc, before, after, rfl, hbefore⟩ := List.find?_eq_some_iff_append.mp hfind
  have hbefore : ∀ d ∈ before, IsContent d := fun d hd => by simpa using hbefore d hd
  have hc : ¬ IsContent c := by simpa using hc
  have hquote : c ≠ '"' := by
    rintro rfl
    exact hc (Or.inl (by decide))
  have hclear : ∀ k, EndsClear before (c :: k) := fun _ _ _ hd => absurd (Option.some.inj hd) hquote
  refine ⟨blockText before, c, blockText after, blockText_append_cons hquote _ _, ?_, hc, ?_⟩
  · intro d hd
    rcases mem_blockText hd with rfl | hd
    · exact Or.inl (by decide)
    · exact hbefore d hd
  · rw [blockText_append_cons hquote, List.append_assoc, List.cons_append,
      body_blockText hbefore (hclear _), body_of_not_content hc]

theorem value_oneLine (h : fitsOneLine text = true) : value text = text := by
  simp only [fitsOneLine, Bool.and_eq_true, Bool.not_eq_true'] at h
  obtain ⟨⟨⟨h1, h2⟩, -⟩, -⟩ := h
  have hl : IsLine text := by
    intro c hc
    have := List.any_eq_false.mp h1 c hc
    simpa using this
  have htrim : trimBlankLines [text] = [text] := by
    simp [trimBlankLines, h2]
  rw [value, lines_line hl, dedent, List.map_nil, htrim, List.intercalate_singleton]

theorem endsClear_of_fitsOneLine (h : fitsOneLine text = true) :
    ∀ c ∈ text.getLast?, c ≠ '"' ∧ c ≠ '\\' := by
  simp only [fitsOneLine, Bool.and_eq_true, bne_iff_ne] at h
  intro c hc
  rw [Option.mem_def] at hc
  rw [hc] at h
  exact ⟨fun he => h.1.2 (by rw [he]), fun he => h.2 (by rw [he])⟩

variable {margin : List Char} (hm : ∀ c ∈ margin, isIndent c = true)
include hm

theorem not_quote_mem_margin : '"' ∉ margin := fun h => by
  have := hm _ h
  cases this

theorem flatMap_marginLine (ls : List (List Char)) (cs : List Char) :
    ls.flatMap (marginLine margin) ++ '\n' :: blockText cs =
      blockText (ls.flatMap (fun l => '\n' :: indented margin l) ++ '\n' :: cs) := by
  have hq := not_quote_mem_margin hm
  have hline : ∀ l k : List Char, '\n' :: (indented margin l ++ '\n' :: k) =
      [] ++ '\n' :: (indented margin l ++ '\n' :: k) := fun _ _ => rfl
  induction ls with
  | nil => exact (blockText_newline [] cs).symm
  | cons l ls ih =>
    have hstart : ∃ k, ls.flatMap (fun l => '\n' :: indented margin l) ++ '\n' :: cs = '\n' :: k := by
      cases ls with
      | nil => exact ⟨cs, rfl⟩
      | cons l' ls => exact ⟨_, rfl⟩
    obtain ⟨k, hk⟩ := hstart
    have hk' : ls.flatMap (marginLine margin) ++ '\n' :: blockText cs = '\n' :: blockText k := by
      rw [ih, hk]
      exact blockText_newline [] k
    rw [List.flatMap_cons, List.append_assoc, hk', List.flatMap_cons, List.append_assoc, hk,
      List.cons_append, hline, blockText_newline, blockText_newline]
    unfold marginLine indented
    split
    · rfl
    · rw [blockText_of_no_quote hq]
      rfl

theorem literal_lines : literal (.lines margin) text =
    fence ++ blockText (contents margin (splitLines text)) ++ fence := by
  have hq := not_quote_mem_margin hm
  have hmargin : blockText margin = margin := by
    simpa [blockText] using blockText_of_no_quote hq []
  have h := flatMap_marginLine hm (splitLines text) margin
  rw [hmargin] at h
  rw [contents, ← h, literal]
  simp

theorem getLast_contents {ls : List (List Char)} :
    ∀ c ∈ (contents margin ls).getLast?, c ≠ '"' ∧ c ≠ '\\' := by
  intro c hc
  have hne : '\n' :: margin ≠ [] := by simp
  rw [contents, List.getLast?_append_of_ne_nil _ hne, Option.mem_def] at hc
  have hmem := List.mem_of_getLast? hc
  rcases List.mem_cons.mp hmem with rfl | hmem
  · decide
  · have := hm c hmem
    simp only [isIndent, Bool.or_eq_true, beq_iff_eq] at this
    rcases this with rfl | rfl <;> decide

theorem isContent_contents (h : ∀ c ∈ text, IsContent c) (hr : '\r' ∉ text) :
    ∀ c ∈ contents margin (splitLines text), IsContent c := by
  have hn : IsContent '\n' := Or.inr (Or.inr (Or.inl rfl))
  have hmargin : ∀ c ∈ margin, IsContent c := by
    intro c hc
    have := hm c hc
    simp only [isIndent, Bool.or_eq_true, beq_iff_eq] at this
    rcases this with rfl | rfl
    · exact Or.inl (by decide)
    · exact Or.inr (Or.inl rfl)
  intro c hc
  rcases List.mem_append.mp hc with hc | hc
  · obtain ⟨l, hl, hc⟩ := List.mem_flatMap.mp hc
    rcases List.mem_cons.mp hc with rfl | hc
    · exact hn
    · unfold indented at hc
      split at hc
      · simp at hc
      · rcases List.mem_append.mp hc with hc | hc
        · exact hmargin c hc
        · exact h c ((isLine_of_mem_splitLines hl hr).2 c hc)
  · rcases List.mem_cons.mp hc with rfl | hc
    · exact hn
    · exact hmargin c hc

theorem value_lines (h : fitsLines text = true) :
    value (contents margin (splitLines text)) = text := by
  simp only [fitsLines, Bool.and_eq_true, Bool.not_eq_true', List.any_eq_true] at h
  obtain ⟨⟨⟨h1, h2⟩, h3⟩, l, hl, h4, h5⟩ := h
  have hr : '\r' ∉ text := by simpa using h1
  have hind : indentation l = 0 := by
    cases l with
    | nil => rfl
    | cons c l =>
      have : isIndent c = false := by simpa using h5
      simp [indentation, this]
  rw [value_contents hm (fun l hl => (isLine_of_mem_splitLines hl hr).1) ?_ ?_ ⟨l, hl, h4, hind⟩,
    intercalate_splitLines]
  · intro l hl
    rw [Option.mem_def] at hl
    simpa [hl] using h2
  · intro l hl
    rw [Option.mem_def] at hl
    simpa [hl] using h3

end Literal

end QueryDocs.Block
