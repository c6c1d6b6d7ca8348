import QueryDocs.Import.Line
import QueryDocs.Proofs.Tokens.Seams

/-! # Import lines are comments

To a reader of tokens an import line with nothing but blanks behind its path is trivia
(`scan_importLine`): the blanks before the number sign have to be ones that stand between tokens, the path
holds no line end, and so the comment goes on to a line end behind the path. -/

namespace QueryDocs

open QueryDocs.Text

/-- Every line but the last ends with a line feed. -/
theorem getLast_of_mem_lines {cs line : List Char} (h : line ∈ (lines cs).dropLast) :
    line.getLast? = some '\n' := by
  induction cs generalizing line with
  | nil => cases h
  | cons c cs ih =>
    rw [lines] at h
    split at h
    · next hc =>
      cases hl : lines cs with
      | nil => rw [hl] at h; cases h
      | cons first rest =>
        rw [hl, List.dropLast_cons_cons] at h
        rcases List.mem_cons.mp h with rfl | h
        · rw [hc]
          rfl
        · exact ih (hl ▸ h)
    · cases hl : lines cs with
      | nil => rw [hl] at h; cases h
      | cons first rest =>
        simp only [hl] at h ih
        cases rest with
        | nil => cases h
        | cons second rest =>
          rw [List.dropLast_cons_cons] at h ih
          rcases List.mem_cons.mp h with rfl | h
          · rw [List.getLast?_cons, ih List.mem_cons_self]
            rfl
          · exact ih (List.mem_cons_of_mem _ h)

/-! ### The parts of an import line -/

theorem ImportLine.isLineEnd_of_isPathChar {c : Char} (h : isPathChar c = true) : isLineEnd c = false := by
  rw [← Bool.not_eq_true, isLineEnd_iff]
  rintro (rfl | rfl) <;> revert h <;> decide

/-- **How import lines are written.** -/
theorem ImportLine.read?_eq_some_iff {line : List Char} {asked : ImportLine} :
    ImportLine.read? line = some asked ↔ ∃ blanks,
      line = blanks ++ (opening.toList ++ (asked.target.toList ++ '"' :: asked.rest)) ∧
        (∀ c ∈ blanks, isBlank c = true) ∧ asked.target.toList ≠ [] ∧
          ∀ c ∈ asked.target.toList, isPathChar c = true := by
  constructor
  · intro h
    obtain ⟨cs, hcs, h⟩ := Option.bind_eq_some_iff.mp h
    have hopening : opening.toList ++ cs = line.dropWhile isBlank :=
      List.isPrefixOf?_eq_some_iff_append_eq.mp hcs
    dsimp only at h
    split at h
    · cases h
    · next quote rest hquote =>
      split_ifs at h with hpath
      cases h
      have hstart := List.head?_dropWhile_not (· ≠ '"') cs
      rw [hquote] at hstart
      obtain rfl : quote = '"' := by simpa using hstart
      refine ⟨line.takeWhile isBlank, ?_, fun c hc => List.mem_takeWhile_imp hc, ?_⟩
      · rw [String.toList_ofList, ← hquote, List.takeWhile_append_dropWhile, hopening,
          List.takeWhile_append_dropWhile]
      · rw [String.toList_ofList]
        exact ⟨hpath.1, List.all_eq_true.mp hpath.2⟩
  · rintro ⟨blanks, rfl, hblanks, hne, hpath⟩
    have hplain : ∀ c ∈ asked.target.toList, decide (c ≠ '"') = true := by
      intro c hc
      rw [decide_eq_true_iff]
      rintro rfl
      exact absurd (hpath _ hc) (by decide)
    have hdrop : (blanks ++ (opening.toList ++ (asked.target.toList ++ '"' :: asked.rest))).dropWhile
        isBlank = opening.toList ++ (asked.target.toList ++ '"' :: asked.rest) := by
      rw [List.dropWhile_append_of_pos hblanks]
      exact List.dropWhile_cons_of_neg (by decide)
    have hcut : opening.toList.isPrefixOf? (opening.toList ++ (asked.target.toList ++ '"' :: asked.rest))
        = some (asked.target.toList ++ '"' :: asked.rest) :=
      List.isPrefixOf?_eq_some_iff_append_eq.mpr rfl
    have htake : (asked.target.toList ++ '"' :: asked.rest).takeWhile (· ≠ '"') = asked.target.toList := by
      rw [List.takeWhile_append_of_pos hplain, List.takeWhile_cons_of_neg (by decide), List.append_nil]
    have hbehind : (asked.target.toList ++ '"' :: asked.rest).dropWhile (· ≠ '"') = '"' :: asked.rest := by
      rw [List.dropWhile_append_of_pos hplain, List.dropWhile_cons_of_neg (by decide)]
    rw [read?, hdrop, hcut, Option.bind_eq_bind, Option.bind_some]
    dsimp only
    rw [hbehind, htake]
    dsimp only
    rw [if_pos ⟨hne, List.all_eq_true.mpr hpath⟩, String.ofList_toList]

theorem ImportLine.read?_eq_some {line : List Char} {asked : ImportLine}
    (h : ImportLine.read? line = some asked) :
    ∃ blanks text, line = blanks ++ '#' :: (text ++ asked.rest) ∧ (∀ c ∈ blanks, isBlank c = true) ∧
      ∀ c ∈ text, isLineEnd c = false := by
  obtain ⟨blanks, rfl, hblanks, -, hpath⟩ := read?_eq_some_iff.mp h
  refine ⟨blanks, "import \"".toList ++ asked.target.toList ++ ['"'], by simp [opening], hblanks,
    fun c hc => ?_⟩
  rcases List.mem_append.mp hc with hc | hc
  · rcases List.mem_append.mp hc with hc | hc
    · have hword : ∀ c ∈ "import \"".toList, isLineEnd c = false := by simp [isLineEnd]
      exact hword c hc
    · exact isLineEnd_of_isPathChar (hpath c hc)
  · rw [List.mem_singleton.mp hc]
    rfl

/-! ### Blanks -/

section Blanks
variable {c : Char} {b : Bool} {offset : Nat} {cs k rest : List Char} {t : Token}

/-- Blanks are passed over up to one that does not stand between tokens. A comment that is open before
them ends with them, if they end with a line end or nothing stands behind them. -/
theorem skipTrivia_blanks (hcs : ∀ c ∈ cs, isBlank c = true)
    (hb : b = true → (cs ≠ [] ∧ EndsLine cs) ∨ k = []) :
    skipTrivia b offset (cs ++ k) = skipTrivia false (offset + byteLength cs) k ∨
      ∃ start c ds, skipTrivia b offset (cs ++ k) = (start, c :: ds) ∧ isBlank c = true := by
  induction cs generalizing b offset with
  | nil =>
    refine Or.inl ?_
    cases b with
    | false => rfl
    | true =>
      rcases hb rfl with ⟨hne, -⟩ | rfl
      · exact absurd rfl hne
      · rfl
  | cons c cs ih =>
    obtain ⟨hc, hcs⟩ := List.forall_mem_cons.mp hcs
    rw [byteLength_cons, ← Nat.add_assoc, List.cons_append]
    cases b with
    | true =>
      rw [skipTrivia, if_pos rfl]
      refine ih hcs fun hopen => ?_
      rcases hb rfl with ⟨-, hend⟩ | hk
      · refine Or.inl ⟨?_, @EndsLine.of_append [c] cs hend⟩
        rintro rfl
        rw [hend c rfl] at hopen
        cases hopen
      · exact Or.inr hk
    | false =>
      have hhash : c ≠ '#' := by
        rintro rfl
        revert hc
        decide
      by_cases hpass : (isIgnored c || (c == byteOrderMark && offset == 0)) = true
      · rw [skipTrivia, if_neg (by simp), if_neg hhash, if_pos hpass]
        exact ih hcs (by simp)
      · refine Or.inr ⟨offset, c, cs ++ k, ?_, hc⟩
        rw [skipTrivia, if_neg (by simp), if_neg hhash, if_neg hpass]

/-- A comment goes on over everything but line ends. -/
theorem skipTrivia_open (hcs : ∀ c ∈ cs, isLineEnd c = false) (offset : Nat) (k : List Char) :
    skipTrivia true offset (cs ++ k) = skipTrivia true (offset + byteLength cs) k := by
  induction cs generalizing offset with
  | nil => rfl
  | cons c cs ih =>
    obtain ⟨hc, hcs⟩ := List.forall_mem_cons.mp hcs
    rw [List.cons_append, skipTrivia, if_pos rfl, hc, byteLength_cons, ← Nat.add_assoc]
    exact ih hcs _

/-- An import line with blanks behind its path is passed over up to a blank that does not stand between
tokens. -/
theorem skipTrivia_importLine {line : List Char} {asked : ImportLine}
    (hread : ImportLine.read? line = some asked) (hrest : asked.rest.all isBlank = true)
    (hk : EndsLine line ∨ k = []) (offset : Nat) :
    skipTrivia false offset (line ++ k) = skipTrivia false (offset + byteLength line) k ∨
      ∃ start c ds, skipTrivia false offset (line ++ k) = (start, c :: ds) ∧ isBlank c = true := by
  obtain ⟨blanks, text, rfl, hblanks, htext⟩ := ImportLine.read?_eq_some hread
  have hrest' : ∀ c ∈ asked.rest, isBlank c = true := List.all_eq_true.mp hrest
  have hclosed : (asked.rest ≠ [] ∧ EndsLine asked.rest) ∨ k = [] := by
    refine hk.imp_left fun hend => ?_
    have hcomment : EndsLine ('#' :: text ++ asked.rest) := hend.of_append
    refine ⟨?_, hcomment.of_append⟩
    intro hnil
    rw [hnil, List.append_nil] at hcomment
    rcases List.mem_cons.mp (hcomment.newline_mem (by simp)) with h | h
    · cases h
    · cases htext _ h
  have hhash : ∀ (offset : Nat) (cs : List Char),
      skipTrivia false offset ('#' :: cs) = skipTrivia true (offset + 1) cs := fun offset cs => by
    rw [skipTrivia, if_neg (by simp), if_pos rfl]
  have hlength : byteLength (blanks ++ '#' :: (text ++ asked.rest)) =
      byteLength blanks + 1 + byteLength text + byteLength asked.rest := by
    simp only [byteLength_append, byteLength_cons, show ('#' : Char).utf8Size = 1 by decide]
    omega
  have htail := @skipTrivia_blanks true (offset + byteLength blanks + 1 + byteLength text) asked.rest k
    hrest' fun _ => hclosed
  rw [← skipTrivia_open htext, ← hhash] at htail
  rw [List.append_assoc, List.cons_append, List.append_assoc, hlength]
  rcases @skipTrivia_blanks false offset blanks ('#' :: (text ++ (asked.rest ++ k))) hblanks (by simp) with
    hblank | hstop
  · rw [hblank]
    simpa only [Nat.add_assoc] using htail
  · exact Or.inr hstop

/-- **An import line with blanks behind its path is trivia**, wherever a token can be read behind it. -/
theorem scan_importLine {line : List Char} {asked : ImportLine}
    (hread : ImportLine.read? line = some asked) (hrest : asked.rest.all isBlank = true)
    (hk : EndsLine line ∨ k = []) (h : scan offset (line ++ k) = .ok (t, rest)) :
    scan offset (line ++ k) = scan (offset + byteLength line) k := by
  rcases skipTrivia_importLine hread hrest hk offset with hskip | ⟨start, c, ds, hskip, hc⟩
  · rw [scan, hskip, scan]
  · rw [scan, hskip] at h
    rw [scanToken_blank h] at hc
    cases hc

end Blanks

end QueryDocs
