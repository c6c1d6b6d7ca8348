import Mathlib.Data.List.DropRight
import Mathlib.Data.List.Infix
import QueryDocs.Proofs.Splicing

/-! # Texts without import lines

A text is free of import lines if none of its lines is one. Where texts are put together this shows at the
line over each seam (`importFree_append_line`). -/

namespace QueryDocs

open QueryDocs.Text

section Lines
variable {cs k line : List Char}

/-- The lines of a text that ends with a line feed come before those of what follows. -/
theorem lines_append (h : cs = [] ∨ cs.getLast? = some '\n') (k : List Char) :
    lines (cs ++ k) = lines cs ++ lines k := by
  induction cs with
  | nil => rfl
  | cons c cs ih =>
    rw [List.cons_append, lines, lines]
    replace h := h.resolve_left (List.cons_ne_nil c cs)
    split_ifs with hc
    · rw [ih, List.cons_append]
      cases cs with
      | nil => exact Or.inl rfl
      | cons d cs => exact Or.inr h
    · cases cs with
      | nil => simp [hc] at h
      | cons d cs =>
        rw [ih (Or.inr h)]
        cases hl : lines (d :: cs) with
        | nil =>
          have hflat := flatten_lines (d :: cs)
          rw [hl] at hflat
          cases hflat
        | cons first rest => rfl

theorem lines_eq_singleton (hne : line ≠ []) (h : '\n' ∉ line.dropLast) : lines line = [line] := by
  induction line with
  | nil => exact absurd rfl hne
  | cons c line ih =>
    rw [lines]
    cases line with
    | nil => split_ifs <;> rfl
    | cons d line =>
      rw [List.dropLast_cons_cons, List.mem_cons, not_or] at h
      rw [if_neg (Ne.symm h.1), ih (List.cons_ne_nil d line) h.2]

theorem notMem_dropLast_of_mem_lines (h : line ∈ lines cs) : '\n' ∉ line.dropLast := by
  induction cs generalizing line with
  | nil => cases h
  | cons c cs ih =>
    rw [lines] at h
    split_ifs at h with hc
    · rcases List.mem_cons.mp h with rfl | h
      · exact List.not_mem_nil
      · exact ih h
    · cases hl : lines cs with
      | nil =>
        rw [hl] at h
        rw [List.mem_singleton.mp h]
        exact List.not_mem_nil
      | cons first rest =>
        rw [hl] at h ih
        rcases List.mem_cons.mp h with rfl | h
        · have hfirst : first ≠ [] := ne_nil_of_mem_lines (hl ▸ List.mem_cons_self)
          rw [List.dropLast_cons_of_ne_nil hfirst, List.mem_cons, not_or]
          exact ⟨Ne.symm hc, ih List.mem_cons_self⟩
        · exact ih (List.mem_cons_of_mem first h)

end Lines

/-! ### Reading import lines -/

namespace ImportLine

variable {line k : List Char} {asked : ImportLine}

/-- What follows an import line goes to its rest. -/
theorem read?_append (h : read? line = some asked) (k : List Char) :
    read? (line ++ k) = some ⟨asked.target, asked.rest ++ k⟩ := by
  obtain ⟨blanks, rfl, hblanks, hne, hpath⟩ := read?_eq_some_iff.mp h
  exact read?_eq_some_iff.mpr ⟨blanks, by simp, hblanks, hne, hpath⟩

theorem read?_eq_none_of_append (h : read? (line ++ k) = none) : read? line = none := by
  cases hread : read? line with
  | none => rfl
  | some asked => cases h.symm.trans (read?_append hread k)

theorem read?_newline : read? (line ++ ['\n']) = none ↔ read? line = none := by
  refine ⟨read?_eq_none_of_append, fun h => ?_⟩
  cases hread : read? (line ++ ['\n']) with
  | none => rfl
  | some asked =>
    obtain ⟨blanks, hline, hparts⟩ := read?_eq_some_iff.mp hread
    -- the line feed is not the closing quote, so it is in the rest
    rcases List.eq_nil_or_concat asked.rest with hrest | ⟨rest, c, hrest⟩
    · rw [hrest] at hline
      have := congrArg List.getLast? hline
      simp at this
    · rw [List.concat_eq_append] at hrest
      have hline' : line ++ ['\n'] =
          blanks ++ (opening.toList ++ (asked.target.toList ++ '"' :: rest)) ++ [c] := by
        rw [hline, hrest]
        simp
      obtain ⟨rfl, -⟩ := List.append_inj' hline' rfl
      have hbefore : read? _ = some ⟨asked.target, rest⟩ :=
        read?_eq_some_iff.mpr ⟨blanks, rfl, hparts⟩
      cases h.symm.trans hbefore

/-- What stands behind the path of an import line ends the line. -/
theorem exists_append_rest (h : read? line = some asked) : ∃ cs, line = cs ++ asked.rest := by
  obtain ⟨blanks, rfl, -⟩ := read?_eq_some_iff.mp h
  exact ⟨blanks ++ (opening.toList ++ (asked.target.toList ++ ['"'])), by simp⟩

theorem notMem_dropLast_rest (h : read? line = some asked) (hline : '\n' ∉ line.dropLast) :
    '\n' ∉ asked.rest.dropLast := by
  obtain ⟨cs, hcs⟩ := exists_append_rest h
  by_cases hrest : asked.rest = []
  · simp [hrest]
  · rw [hcs, List.dropLast_append_of_ne_nil hrest, List.mem_append, not_or] at hline
    exact hline.2

end ImportLine

theorem ImportLine.getLast_replace {line imported : List Char} {asked : ImportLine}
    (hread : ImportLine.read? line = some asked) (hline : line.getLast? = some '\n') :
    (asked.replace imported).getLast? = some '\n' := by
  by_cases hblank : asked.rest.all isBlank = true
  · rcases replace_of_blank hread hblank imported with ho | ⟨ho, hend⟩
    · rw [ho, List.getLast?_concat]
    · rw [ho, hend hline]
  · obtain ⟨cs, rfl⟩ := exists_append_rest hread
    have hne : asked.rest ≠ [] := fun hnil => hblank (by rw [hnil]; rfl)
    rw [List.getLast?_append_of_ne_nil _ hne] at hline
    rw [replace, if_neg hblank, List.getLast?_append_of_ne_nil _ hne, hline]

theorem FileStore.getLast_of_expandLine {store : FileStore} {chain : List String} {file : String}
    {line o : List Char} (h : store.expandLine chain file line = .ok o)
    (hline : line.getLast? = some '\n') : o.getLast? = some '\n' := by
  cases hread : ImportLine.read? line with
  | none =>
    cases (expandLine_plain hread).symm.trans h
    exact hline
  | some asked =>
    obtain ⟨imported, -, rfl⟩ := (expandLine_eq_ok hread).mp h
    exact ImportLine.getLast_replace hread hline

/-! ### Texts free of import lines -/

/-- No line of a text is an import line. -/
def ImportFree (cs : List Char) : Prop := ∀ line ∈ lines cs, ImportLine.read? line = none

/-- The end of a text, behind its last line feed. -/
def lastLine (cs : List Char) : List Char := cs.rtakeWhile (· ≠ '\n')

section ImportFree
variable {cs k line imported : List Char} {asked : ImportLine}

theorem importFree_append (h : cs = [] ∨ cs.getLast? = some '\n') :
    ImportFree (cs ++ k) ↔ ImportFree cs ∧ ImportFree k := by
  rw [ImportFree, lines_append h]
  exact List.forall_mem_append

theorem importFree_line (h : '\n' ∉ line.dropLast) :
    ImportFree line ↔ ImportLine.read? line = none := by
  cases line with
  | nil => exact ⟨fun _ => rfl, fun _ => nofun⟩
  | cons c line =>
    rw [ImportFree, lines_eq_singleton (List.cons_ne_nil c line) h]
    exact List.forall_mem_singleton

/-- A text and its last line, which may be empty. -/
theorem exists_lastLine (cs : List Char) : ∃ before, cs = before ++ lastLine cs ∧
    (before = [] ∨ before.getLast? = some '\n') ∧ '\n' ∉ lastLine cs := by
  refine ⟨cs.rdropWhile (· ≠ '\n'), List.rdropWhile_append_rtakeWhile.symm, ?_, fun h => ?_⟩
  · by_cases hne : cs.rdropWhile (· ≠ '\n') = []
    · exact Or.inl hne
    · have hlast := List.rdropWhile_last_not _ _ hne
      rw [List.getLast?_eq_some_getLast hne]
      exact Or.inr (congrArg some (by simpa using hlast))
  · simpa using List.mem_rtakeWhile_imp h

theorem ImportFree.read?_lastLine (h : ImportFree cs) : ImportLine.read? (lastLine cs) = none := by
  obtain ⟨before, hcs, hbefore, hlast⟩ := exists_lastLine cs
  rw [hcs, importFree_append hbefore, importFree_line fun h => hlast (List.mem_of_mem_dropLast h)] at h
  exact h.2

/-- **A line that is begun by a text and ended by another one** is an import line or not; the rest is that
of the first text. -/
theorem importFree_append_line (hne : k ≠ []) (hk : '\n' ∉ k.dropLast) :
    ImportFree (cs ++ k) ↔ ImportFree cs ∧ ImportLine.read? (lastLine cs ++ k) = none := by
  obtain ⟨before, hcs, hbefore, hlast⟩ := exists_lastLine cs
  have hline : '\n' ∉ (lastLine cs ++ k).dropLast := by
    rw [List.dropLast_append_of_ne_nil hne, List.mem_append, not_or]
    exact ⟨hlast, hk⟩
  have hfree : ImportFree cs ↔ ImportFree before ∧ ImportLine.read? (lastLine cs) = none := by
    rw [← importFree_line fun h => hlast (List.mem_of_mem_dropLast h), ← importFree_append hbefore, ← hcs]
  calc ImportFree (cs ++ k) ↔ ImportFree before ∧ ImportLine.read? (lastLine cs ++ k) = none := by
        rw [← importFree_line hline, ← importFree_append hbefore, ← List.append_assoc, ← hcs]
    _ ↔ ImportFree cs ∧ ImportLine.read? (lastLine cs ++ k) = none := by
        rw [hfree, and_assoc, and_iff_right_of_imp (b := _ = none) ImportLine.read?_eq_none_of_append]

/-- **What takes the place of an import line** is free of import lines if what it asks for is, and if none
comes about where its own rest is kept. -/
theorem importFree_replace (hread : ImportLine.read? line = some asked) (hline : '\n' ∉ line.dropLast) :
    ImportFree (asked.replace imported) ↔ ImportFree imported ∧
      (asked.rest.all isBlank = false → ImportLine.read? (lastLine imported ++ asked.rest) = none) := by
  rw [ImportLine.replace]
  split_ifs with hblank hend
  · rw [importFree_append_line (List.cons_ne_nil '\n' []) List.not_mem_nil, ImportLine.read?_newline,
      and_iff_left_of_imp ImportFree.read?_lastLine]
    simp [hblank]
  · simp [hblank]
  · rw [importFree_append_line (fun hnil => hblank (by rw [hnil]; rfl))
      (ImportLine.notMem_dropLast_rest hread hline)]
    simp [hblank]

end ImportFree

end QueryDocs
