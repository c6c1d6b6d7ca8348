import QueryDocs.Proofs.Tokens.Comments

/-! # The next token

The token after a given one is read from the text behind it. The trivia there does not count, so what is
read depends on the text from the first character of the token on (`Source.NextAt.next`). -/

namespace QueryDocs

open QueryDocs.Text

section Next
variable {s : Source} {p : Token} {offset : Nat} {cs : List Char}

theorem Source.next_of_textFrom (h : s.TextFrom p.span.stop cs) (hp : p.isEnd = false) :
    s.next p = (scan p.span.stop cs).map (·.1) := by
  obtain ⟨before, hchars, hstop⟩ := h
  rw [Source.next, if_neg (by simp [hp]), hchars, hstop, land_append]

/-- A text stands behind a token, at an offset, with nothing but trivia between the two. -/
def Source.NextAt (s : Source) (p : Token) (offset : Nat) (cs : List Char) : Prop :=
  p.isEnd = false ∧ ∃ gap, s.TextFrom p.span.stop (gap ++ cs) ∧
    IsTrivia (p.span.stop == 0) false gap ∧ offset = p.span.stop + byteLength gap

theorem Source.NextAt.next (h : s.NextAt p offset cs) : s.next p = (scan offset cs).map (·.1) := by
  obtain ⟨hp, gap, htext, hgap, rfl⟩ := h
  rw [Source.next_of_textFrom htext hp, hgap.scan_append]

/-- From the very start of a text its first token is read. -/
theorem Source.nextAt_start (s : Source) : s.NextAt .startOfText 0 s.chars :=
  ⟨rfl, [], s.textFrom_zero, Or.inl .nil, rfl⟩

theorem Source.NextAt.next_quote (h : s.NextAt p offset ('"' :: cs)) (hcs : ¬ ['"', '"'] <+: cs) :
    s.next p = (Quoted.body offset [] (offset + 1) cs).map fun r =>
      ⟨.string, some (String.ofList r.1), ⟨offset, r.2.1⟩⟩ := by
  rw [h.next, scan_of_start (by decide) (by decide) (by decide), scanToken_quote hcs]
  cases Quoted.body offset [] (offset + 1) cs <;> rfl

theorem Source.NextAt.next_fence (h : s.NextAt p offset (Block.fence ++ cs)) :
    s.next p = (Block.body offset [] (offset + 3) cs).map fun r =>
      ⟨.blockString, some (String.ofList (Block.value r.1)), ⟨offset, r.2.1⟩⟩ := by
  have hnext := h.next
  rw [Block.fence, List.cons_append, scan_of_start (by decide) (by decide) (by decide)] at hnext
  rw [hnext, List.cons_append, List.cons_append, List.nil_append,
    scanToken_fence]
  cases Block.body offset [] (offset + 3) cs <;> rfl

end Next

end QueryDocs
