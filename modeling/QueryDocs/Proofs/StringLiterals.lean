import QueryDocs.Proofs.Layout.Nodes
import QueryDocs.Proofs.Tokens.Demand

/-! # String literals

The literal that is printed for a string value is read back as one token for its text, wherever it
stands and whatever follows it but a quote, unless it is a block string for a text with control
characters. Such a literal is refused at the first of them (`Source.next_stringValue`). -/

namespace QueryDocs

open QueryDocs.Layout QueryDocs.Text

section Literals
variable {v : StringValue} {margin : List Char} (hm : ∀ c ∈ margin, Block.isIndent c = true)
include hm

theorem StringValue.exists_block_of_not_readable (hv : ¬ v.Readable) :
    ∃ raw, literal (.choose margin v.block v.text.toList) v.text.toList =
      Block.fence ++ blockText raw ++ Block.fence ∧ ¬ ∀ c ∈ raw, Block.IsContent c := by
  obtain ⟨text, block, span⟩ := v
  simp only [StringValue.Readable, Classical.not_imp, Bool.or_eq_true] at hv
  obtain ⟨rfl, hfits, hcontrol⟩ := hv
  by_cases h1 : fitsOneLine text.toList = true
  · exact ⟨text.toList, by simp [StringForm.choose, h1, literal], hcontrol⟩
  · have h2 : fitsLines text.toList = true := hfits.resolve_left h1
    refine ⟨Block.contents margin (splitLines text.toList), ?_, fun hraw => hcontrol fun c hc => ?_⟩
    · rw [← Block.literal_lines hm]
      simp [StringForm.choose, h1, h2]
    · -- the text is the value of what is written
      refine (Block.isValueChar_of_value hraw c ?_).isContent
      rwa [Block.value_lines hm h2]

end Literals

section Reading
variable {s : Source} {p : Token} {offset level : Nat} {rest : List Char} {style : Style} {v : StringValue}

theorem Source.NextAt.next_readable (h : s.NextAt p offset ((stringValue style level v).chars ++ rest))
    (hrest : Stops (· == '"') rest) (hv : v.Readable) :
    ∃ k, (k = .string ∨ k = .blockString) ∧ s.next p = .ok ⟨k, some v.text,
      ⟨offset, offset + byteLength (stringValue style level v).chars⟩⟩ := by
  obtain ⟨k, hk, hl⟩ := v.exists_lexeme_print
  have hw := written_string (fun _ hc => isIndent_of_mem_margin style level hc) hv
  rw [hl] at hw
  refine ⟨k, hk, ?_⟩
  rw [h.next]
  have hscan := @scan_of_written offset _ rest ⟨k, some v.text, ⟨offset, offset + byteLength _⟩⟩ hw rfl
    (precedes_of_string hk hrest _ _)
  rw [stringValue, hscan]
  rfl

theorem Source.NextAt.next_not_readable
    (h : s.NextAt p offset ((stringValue style level v).chars ++ rest)) (hv : ¬ v.Readable) :
    ∃ before c after, (stringValue style level v).chars = before ++ c :: after ∧
      (∀ d ∈ before, Block.IsContent d) ∧ ¬ Block.IsContent c ∧
      s.next p = .error ⟨.unexpectedCharacter c, offset + byteLength before⟩ := by
  obtain ⟨raw, hraw, hcontrol⟩ :=
    v.exists_block_of_not_readable (fun _ hc => isIndent_of_mem_margin style level hc) hv
  obtain ⟨before, c, after, htext, hbefore, hc, hbody⟩ :=
    Block.body_escaped_control hcontrol offset (offset + 3) (Block.fence ++ rest)
  have hchars : (stringValue style level v).chars = Block.fence ++ blockText raw ++ Block.fence := hraw
  rw [hchars, List.append_assoc, List.append_assoc] at h
  refine ⟨Block.fence ++ before, c, after ++ Block.fence, by simp [hchars, htext], ?_, hc, ?_⟩
  · intro d hd
    rcases List.mem_append.mp hd with hd | hd
    · obtain rfl : d = '"' := by simpa [Block.fence] using hd
      exact Or.inl (by decide)
    · exact hbefore d hd
  · rw [h.next_fence, hbody, Block.byteLength_fence_append, Nat.add_assoc]
    rfl

/-- **A printed string literal is read back unless control characters stand in a block string.** In
front of anything but a quote the literal is one token, for the text of the value, exactly if the value
is readable; otherwise the first control character in the literal is an error. -/
theorem Source.next_stringValue (h : s.NextAt p offset ((stringValue style level v).chars ++ rest))
    (hrest : Stops (· == '"') rest) :
    ((∃ k, (k = .string ∨ k = .blockString) ∧ s.next p = .ok ⟨k, some v.text,
      ⟨offset, offset + byteLength (stringValue style level v).chars⟩⟩) ↔ v.Readable) ∧
    (¬ v.Readable → ∃ before c after, (stringValue style level v).chars = before ++ c :: after ∧
      (∀ d ∈ before, Block.IsContent d) ∧ ¬ Block.IsContent c ∧
      s.next p = .error ⟨.unexpectedCharacter c, offset + byteLength before⟩) := by
  refine ⟨⟨?_, h.next_readable hrest⟩, h.next_not_readable⟩
  rintro ⟨k, -, hok⟩
  by_contra hv
  obtain ⟨_, _, _, -, -, -, herror⟩ := h.next_not_readable hv
  rw [hok] at herror
  cases herror

/-- A block string below its opening quotes, with an escape. -/
theorem Source.next_stringValue_lines :
    let s : Source := ⟨": \"\"\"\n  a\n    \\\"\"\"b\n  \"\"\")", none⟩
    let p : Token := ⟨.colon, none, ⟨0, 1⟩⟩
    let v : StringValue := ⟨"a\n  \"\"\"b", true, ⟨0, 0⟩⟩
    s.NextAt p 2 ((stringValue {} 1 v).chars ++ [')']) ∧ Stops (· == '"') [')'] ∧ v.Readable ∧
      ∃ k, (k = .string ∨ k = .blockString) ∧
        s.next p = .ok ⟨k, some "a\n  \"\"\"b", ⟨2, 25⟩⟩ := by
  intro s p v
  have hchars : s.chars = [':'] ++ ([' '] ++ ((stringValue {} 1 v).chars ++ [')'])) := by decide +kernel
  have hat : s.NextAt p 2 ((stringValue {} 1 v).chars ++ [')']) :=
    ⟨rfl, [' '], ⟨[':'], hchars, rfl⟩, Or.inl (.blank (by simp) .nil), rfl⟩
  have hstops : Stops (· == '"') [')'] := by simp
  have hall : v.text.toList.all (Block.IsContent ·) = true := by decide
  have hv : v.Readable := fun _ _ c hc => of_decide_eq_true (List.all_eq_true.mp hall c hc)
  have hspan : 2 + byteLength (stringValue {} 1 v).chars = 25 := by decide +kernel
  have hnext := (Source.next_stringValue hat hstops).1.mpr hv
  rw [hspan] at hnext
  exact ⟨hat, hstops, hv, hnext⟩

/-- Not every literal is read back: a bell in a block string is refused. -/
theorem Source.next_stringValue_bell : ¬ ∀ (s : Source) (p : Token) (offset : Nat) (rest : List Char)
    (style : Style) (level : Nat) (v : StringValue),
    s.NextAt p offset ((stringValue style level v).chars ++ rest) → Stops (· == '"') rest →
      ∃ k, (k = .string ∨ k = .blockString) ∧ s.next p = .ok ⟨k, some v.text,
        ⟨offset, offset + byteLength (stringValue style level v).chars⟩⟩ := by
  intro hall
  let s : Source := ⟨"\"\"\"\x07\"\"\"", none⟩
  have hchars : s.chars = (stringValue {} 0 ⟨"\x07", true, ⟨0, 0⟩⟩).chars ++ [] := by decide +kernel
  have herror : s.next .startOfText = .error ⟨.unexpectedCharacter '\x07', 3⟩ := by decide +kernel
  have hat := s.nextAt_start
  rw [hchars] at hat
  obtain ⟨k, -, hok⟩ := hall s .startOfText 0 [] {} 0 _ hat (by simp)
  rw [herror] at hok
  cases hok

end Reading

end QueryDocs
