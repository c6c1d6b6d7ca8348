import Mathlib.Data.List.Basic
import Mathlib.Tactic.Common
import QueryDocs.Proofs.Tokens.Block

/-! # The layout of block strings

What a block string denotes does not depend on how it is laid out: neither the line breaks that it is
written with, nor how deep its later lines are indented, nor blank lines behind it count. Its value has
line feeds alone and blank lines at neither end (`Block.value_layout`). -/

namespace QueryDocs.Block

/-! ### Changes of the layout -/

/-- The ways to break a line. -/
def breaks : List (List Char) := [['\n'], ['\r'], ['\r', '\n']]

/-- Puts another text in the place of every line break. -/
def mapBreaks (f : List Char → List Char) : List Char → List Char
  | [] => []
  | '\r' :: '\n' :: cs => f ['\r', '\n'] ++ mapBreaks f cs
  | c :: cs => if c = '\n' ∨ c = '\r' then f [c] ++ mapBreaks f cs else c :: mapBreaks f cs

/-- Writes all line breaks in one way. -/
def rebreak (k : List Char) : List Char → List Char := mapBreaks fun _ => k

/-- Puts a margin before every line but the first. -/
def indentLines (margin : List Char) : List Char → List Char := mapBreaks (· ++ margin)

/-! ### Lines of a changed text -/

section Lines
variable {k l m cs first : List Char} {rest : List (List Char)} {c : Char}

theorem lines_break (hk : k ∈ breaks) (h : k = ['\r'] → cs.head? ≠ some '\n') :
    lines (k ++ cs) = [] :: lines cs := by
  simp only [breaks, List.mem_cons, List.not_mem_nil, or_false] at hk
  rcases hk with rfl | rfl | rfl
  · rw [List.singleton_append, lines] <;> simp
  · rw [List.singleton_append, lines]
    · simp
    · rintro cs - rfl
      exact h rfl rfl
  · rfl

theorem not_mem_rebreak (cs : List Char) : '\n' ∉ rebreak ['\r'] cs := by
  unfold rebreak
  fun_induction mapBreaks (fun _ => ['\r']) cs with
  | case1 => simp
  | case2 cs ih => simpa using ih
  | case3 c cs _ hc ih => simpa using ih
  | case4 c cs _ hc ih =>
    rw [List.mem_cons, not_or]
    exact ⟨fun h => hc (Or.inl h.symm), ih⟩

/-- **The lines of a text do not depend on its line breaks.** -/
theorem lines_rebreak (hk : k ∈ breaks) (cs : List Char) : lines (rebreak k cs) = lines cs := by
  have hbreak : ∀ cs, lines (k ++ rebreak k cs) = [] :: lines (rebreak k cs) := fun cs =>
    lines_break hk fun hk h => not_mem_rebreak cs (by
      rw [hk] at h
      exact List.mem_of_mem_head? h)
  unfold rebreak at hbreak ⊢
  fun_induction mapBreaks (fun _ => k) cs with
  | case1 => rfl
  | case2 cs ih => rw [hbreak, ih, lines]
  | case3 c cs hpair hc ih =>
    rw [hbreak, ih, lines_lineEnd hc hpair]
  | case4 c cs hpair hc ih =>
    obtain ⟨first, rest, hcs⟩ := List.exists_cons_of_ne_nil (lines_ne_nil cs)
    rw [lines_cons hc (ih.trans hcs), lines_cons hc hcs]

theorem head?_indentLines (m cs : List Char) : (indentLines m cs).head? = cs.head? := by
  unfold indentLines
  fun_cases mapBreaks (· ++ m) cs <;> rfl

/-- **A margin goes to every line but the first.** -/
theorem lines_indentLines (hm : IsLine m) (hcs : lines cs = first :: rest) :
    lines (indentLines m cs) = first :: rest.map (m ++ ·) := by
  -- behind a line break all lines get the margin
  have hbreak : ∀ {k cs first rest}, k ∈ breaks → (k = ['\r'] → cs.head? ≠ some '\n') →
      lines (indentLines m cs) = first :: rest.map (m ++ ·) →
      lines (k ++ m ++ indentLines m cs) = [] :: (first :: rest).map (m ++ ·) := by
    intro k cs first rest hk hpair hcs
    rw [List.append_assoc, lines_break hk, lines_append_first hm hcs, List.map_cons]
    intro hcr
    cases m with
    | nil => exact head?_indentLines [] cs ▸ hpair hcr
    | cons c m =>
      have := (hm c List.mem_cons_self).1
      simpa using this
  unfold indentLines at hbreak ⊢
  fun_induction mapBreaks (· ++ m) cs generalizing first rest with
  | case1 =>
    cases hcs
    rfl
  | case2 cs ih =>
    obtain ⟨first', rest', hcs'⟩ := List.exists_cons_of_ne_nil (lines_ne_nil cs)
    obtain ⟨rfl, rfl⟩ := List.cons.inj (hcs : [] :: lines cs = first :: rest)
    rw [hbreak (by decide) (by simp) (ih hcs'), hcs']
  | case3 c cs hpair hc ih =>
    obtain ⟨first', rest', hcs'⟩ := List.exists_cons_of_ne_nil (lines_ne_nil cs)
    rw [lines_lineEnd hc hpair] at hcs
    obtain ⟨rfl, rfl⟩ := List.cons.inj hcs
    have hk : [c] ∈ breaks := by rcases hc with rfl | rfl <;> decide
    refine (hbreak hk (fun hcr h => ?_) (ih hcs')).trans (by rw [hcs'])
    obtain ⟨ds, rfl⟩ := List.head?_eq_some_iff.mp h
    exact hpair ds (List.singleton_inj.mp hcr) rfl
  | case4 c cs hpair hc ih =>
    obtain ⟨first', rest', hcs'⟩ := List.exists_cons_of_ne_nil (lines_ne_nil cs)
    rw [lines_cons hc hcs'] at hcs
    obtain ⟨rfl, rfl⟩ := List.cons.inj hcs
    exact lines_cons hc (ih hcs')

theorem lines_append_blankLine (hk : k ∈ breaks) (hl : isBlankLine l = true) (cs : List Char) :
    ∃ ls bs bs', ls ≠ [] ∧ lines cs = ls ++ bs ∧ lines (cs ++ (k ++ l)) = ls ++ bs' ∧
      (∀ b ∈ bs, isBlankLine b = true) ∧ ∀ b ∈ bs', isBlankLine b = true := by
  have hline : IsLine l := isLine_margin (by simpa [isBlankLine] using hl)
  have hhead : l.head? ≠ some '\n' := fun h => (hline _ (List.mem_of_mem_head? h)).1 rfl
  have hbreak : lines (k ++ l) = [[], l] := by
    rw [lines_break hk fun _ => hhead, lines_line hline]
  fun_induction lines cs with
  | case1 => exact ⟨[[]], [], [l], by simp, rfl, hbreak, by simp, by simpa using hl⟩
  | case2 cs ih =>
    obtain ⟨ls, bs, bs', hne, hcs, hcs', hbs⟩ := ih
    exact ⟨[] :: ls, bs, bs', by simp, by rw [hcs]; rfl, by
      rw [List.cons_append, List.cons_append, lines, hcs']; rfl, hbs⟩
  | case3 c cs hpair hc ih =>
    by_cases hlast : c = '\r' ∧ ∃ ds, cs ++ (k ++ l) = '\n' :: ds
    · -- the text ends with a carriage return, and a line feed completes the pair
      obtain ⟨rfl, ds, hds⟩ := hlast
      obtain rfl : cs = [] := by
        cases cs with
        | nil => rfl
        | cons d cs => exact absurd (by rw [(List.cons.inj hds).1]) (hpair cs rfl)
      have hpair' : ['\r'] ++ (k ++ l) = ['\r', '\n'] ++ l := by
        simp only [breaks, List.mem_cons, List.not_mem_nil, or_false] at hk
        rcases hk with rfl | rfl | rfl
        · rfl
        · cases hds
        · cases hds
      refine ⟨[[]], [[]], [l], by simp, rfl, ?_, by simp [isBlankLine], by simpa using hl⟩
      rw [hpair', lines_break (by decide) (by simp), lines_line hline]
      rfl
    · obtain ⟨ls, bs, bs', hne, hcs, hcs', hbs⟩ := ih
      refine ⟨[] :: ls, bs, bs', by simp, by rw [hcs]; rfl, ?_, hbs⟩
      rw [List.cons_append, lines_lineEnd hc, hcs', List.cons_append]
      exact fun ds hcr hds => hlast ⟨hcr, ds, hds⟩
  | case4 c cs hpair hc hcs => exact absurd hcs (lines_ne_nil cs)
  | case5 c cs hpair hc first rest hcs ih =>
    obtain ⟨ls, bs, bs', hne, hcs', hcs'', hbs⟩ := ih
    obtain ⟨first', ls, rfl⟩ := List.exists_cons_of_ne_nil hne
    rw [hcs] at hcs'
    obtain ⟨rfl, rfl⟩ := List.cons.inj hcs'
    exact ⟨(c :: first) :: ls, bs, bs', by simp, rfl, lines_cons hc hcs'', hbs⟩

end Lines

/-! ### Indentation and blank lines -/

section Blank
variable {m first l : List Char} {ls bs rest : List (List Char)}

theorem isBlankLine_append (hm : isBlankLine m = true) (l : List Char) :
    isBlankLine (m ++ l) = isBlankLine l := by
  rw [isBlankLine, List.all_append, show m.all isIndent = true from hm, Bool.true_and, isBlankLine]

theorem indentation_append (hm : isBlankLine m = true) (l : List Char) :
    indentation (m ++ l) = m.length + indentation l := by
  rw [indentation, List.takeWhile_append_of_pos (by simpa [isBlankLine] using hm), List.length_append,
    indentation]

theorem commonIndentation_map_append (hm : isBlankLine m = true) (h : ∃ l ∈ ls, isBlankLine l = false) :
    commonIndentation (ls.map (m ++ ·)) = m.length + commonIndentation ls := by
  obtain ⟨⟨l, hl, hne, hmin⟩, hle⟩ := (commonIndentation_eq_iff h).mp rfl
  have hne' : isBlankLine (m ++ l) = false := by rw [isBlankLine_append hm, hne]
  have hmin' : indentation (m ++ l) = m.length + commonIndentation ls := by
    rw [indentation_append hm, hmin]
  refine (commonIndentation_eq_iff ⟨m ++ l, List.mem_map_of_mem hl, hne'⟩).mpr
    ⟨⟨m ++ l, List.mem_map_of_mem hl, hne', hmin'⟩, fun l' hl' hne' => ?_⟩
  obtain ⟨l', hmem, rfl⟩ := List.mem_map.mp hl'
  rw [isBlankLine_append hm] at hne'
  rw [indentation_append hm]
  exact Nat.add_le_add_left (hle l' hmem hne') _

theorem trimBlankLines_append_blank (h : ∀ b ∈ bs, isBlankLine b = true) :
    trimBlankLines (ls ++ bs) = trimBlankLines ls := by
  have hall : bs.dropWhile isBlankLine = [] := List.dropWhile_eq_nil_iff.mpr h
  unfold trimBlankLines
  rw [List.dropWhile_append, hall]
  split_ifs with hls
  · rw [List.isEmpty_iff.mp hls]
  · rw [List.reverse_append, List.dropWhile_append_of_pos fun b hb => h b (List.mem_reverse.mp hb)]

theorem trimBlankLines_dedent_append (hne : ls ≠ []) (h : ∀ b ∈ bs, isBlankLine b = true) :
    trimBlankLines (dedent (ls ++ bs)) = trimBlankLines (dedent ls) := by
  obtain ⟨first, rest, rfl⟩ := List.exists_cons_of_ne_nil hne
  rw [List.cons_append, dedent, dedent, commonIndentation_append_blank h, List.map_append,
    ← List.cons_append, trimBlankLines_append_blank]
  intro b hb
  obtain ⟨b, hmem, rfl⟩ := List.mem_map.mp hb
  exact List.all_eq_true.mpr fun c hc => List.all_eq_true.mp (h b hmem) c (List.mem_of_mem_drop hc)

theorem trimBlankLines_dedent_margin (hm : isBlankLine m = true) :
    trimBlankLines (dedent (first :: rest.map (m ++ ·))) = trimBlankLines (dedent (first :: rest)) := by
  by_cases h : ∃ l ∈ rest, isBlankLine l = false
  · rw [dedent, commonIndentation_map_append hm h, List.map_map, dedent]
    congr 3
    funext l
    rw [Function.comp_apply, List.drop_append, List.drop_of_length_le (Nat.le_add_right _ _),
      List.nil_append, Nat.add_sub_cancel_left]
  · -- blank lines are left out whatever their margin
    have hrest : ∀ l ∈ rest, isBlankLine l = true := by simpa using h
    have hrest' : ∀ l ∈ rest.map (m ++ ·), isBlankLine l = true := by
      simpa [isBlankLine_append hm] using hrest
    have hfirst : [first] ≠ [] := by simp
    exact (trimBlankLines_dedent_append hfirst hrest').trans
      (trimBlankLines_dedent_append hfirst hrest).symm

theorem not_blank_of_head? (h : l ∈ (trimBlankLines ls).head?) : isBlankLine l = false := by
  have hprefix : trimBlankLines ls <+: ls.dropWhile isBlankLine := by
    rw [← List.reverse_suffix, trimBlankLines, List.reverse_reverse]
    exact List.dropWhile_suffix _
  obtain ⟨more, hmore⟩ := hprefix
  have hhead : (ls.dropWhile isBlankLine).head? = some l := by
    rw [← hmore, List.head?_append, h, Option.some_or]
  have := List.head?_dropWhile_not isBlankLine ls
  rw [hhead] at this
  simpa using this

theorem not_blank_of_getLast? (h : l ∈ (trimBlankLines ls).getLast?) : isBlankLine l = false := by
  rw [trimBlankLines, List.getLast?_reverse, Option.mem_def] at h
  have := List.head?_dropWhile_not isBlankLine (ls.dropWhile isBlankLine).reverse
  rw [h] at this
  simpa using this

end Blank

/-! ### The value -/

section Value
variable {k l : List Char}

theorem lines_intercalate {ls : List (List Char)} (hne : ls ≠ []) (h : ∀ l ∈ ls, IsLine l) :
    lines (['\n'].intercalate ls) = ls := by
  induction ls with
  | nil => exact absurd rfl hne
  | cons l ls ih =>
    obtain ⟨hl, hls⟩ := List.forall_mem_cons.mp h
    cases ls with
    | nil => rw [List.intercalate_singleton, lines_line hl]
    | cons l' ls =>
      rw [List.intercalate_cons_cons, List.append_assoc, List.singleton_append, lines_append hl,
        ih (by simp) hls]

theorem value_ends (raw : List Char) : value raw = [] ∨
    (∃ l ∈ (lines (value raw)).head?, isBlankLine l = false) ∧
      ∃ l ∈ (lines (value raw)).getLast?, isBlankLine l = false := by
  by_cases hne : trimBlankLines (dedent (lines raw)) = []
  · exact Or.inl (by rw [value, hne, List.intercalate_nil])
  · have hlines : lines (value raw) = trimBlankLines (dedent (lines raw)) :=
      lines_intercalate hne fun l hl => (suffix_of_mem_value hl).1
    have hhead := List.head?_eq_some_head hne
    have hlast := List.getLast?_eq_some_getLast hne
    rw [hlines]
    exact Or.inr ⟨⟨_, hhead, not_blank_of_head? hhead⟩, _, hlast, not_blank_of_getLast? hlast⟩

theorem value_append_blankLine (hk : k ∈ breaks) (hl : isBlankLine l = true) (raw : List Char) :
    value (raw ++ (k ++ l)) = value raw := by
  obtain ⟨ls, bs, bs', hne, hraw, hraw', hbs, hbs'⟩ := lines_append_blankLine hk hl raw
  rw [value, hraw', trimBlankLines_dedent_append hne hbs', value, hraw,
    trimBlankLines_dedent_append hne hbs]

theorem value_indentLines (hm : isBlankLine l = true) (raw : List Char) :
    value (indentLines l raw) = value raw := by
  obtain ⟨first, rest, hraw⟩ := List.exists_cons_of_ne_nil (lines_ne_nil raw)
  have hline : IsLine l := isLine_margin (by simpa [isBlankLine] using hm)
  rw [value, lines_indentLines hline hraw, trimBlankLines_dedent_margin hm, value, hraw]

/-- **The value of a block string does not depend on its layout.** It has no carriage returns, and no
blank line at either end. It stays the same if all line breaks are written in one way, if all lines but
the first are indented by the same margin, and if blank lines are added at the end. -/
theorem value_layout (raw : List Char) :
    '\r' ∉ value raw ∧
    (value raw = [] ∨ (∃ l ∈ (lines (value raw)).head?, isBlankLine l = false) ∧
      ∃ l ∈ (lines (value raw)).getLast?, isBlankLine l = false) ∧
    (∀ k ∈ breaks, value (rebreak k raw) = value raw) ∧
    (∀ margin, isBlankLine margin = true → value (indentLines margin raw) = value raw) ∧
    ∀ ls : List (List Char × List Char), (∀ l ∈ ls, l.1 ∈ breaks ∧ isBlankLine l.2 = true) →
      value (raw ++ ls.flatMap fun l => l.1 ++ l.2) = value raw := by
  refine ⟨fun h => ?_, value_ends raw, fun k hk => ?_, fun margin hm => value_indentLines hm raw,
    fun ls hls => ?_⟩
  · rcases mem_value h with h | ⟨-, -, h⟩
    · cases h
    · exact h rfl
  · rw [value, lines_rebreak hk, value]
  · induction ls generalizing raw with
    | nil => rw [List.flatMap_nil, List.append_nil]
    | cons l ls ih =>
      obtain ⟨⟨hk, hl⟩, hls⟩ := List.forall_mem_cons.mp hls
      rw [List.flatMap_cons, ← List.append_assoc, ih _ hls, value_append_blankLine hk hl]

/-- A text with all three line breaks and a blank line that is not indented as deep as the others: with
carriage returns alone, behind a margin, and with a blank line that completes a pair at its end. -/
theorem value_layout_breaks :
    let raw := "a\n  b\r\n \r   c\r".toList
    value (rebreak ['\r'] raw) = "a\nb\n\n c".toList ∧
      value (indentLines [' ', '\t'] raw) = "a\nb\n\n c".toList ∧
      value (raw ++ "\n \r\n\t".toList) = "a\nb\n\n c".toList := by
  intro raw
  have hraw : value raw = "a\nb\n\n c".toList := by rfl
  let tail : List (List Char × List Char) := [(['\n'], [' ']), (['\r', '\n'], ['\t'])]
  have htail : "\n \r\n\t".toList = tail.flatMap fun l => l.1 ++ l.2 := by rfl
  obtain ⟨-, -, hbreaks, hmargin, hblank⟩ := value_layout raw
  rw [hbreaks _ (by decide), hmargin [' ', '\t'] (by decide), htail, hblank tail (by decide)]
  exact ⟨hraw, hraw, hraw⟩

end Value

end QueryDocs.Block
