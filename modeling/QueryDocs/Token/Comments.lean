import QueryDocs.Token.Lexer

/-! # Reading comments from bytes

The comments of a source are read by a second look at its bytes, once its tokens are known. Between two
tokens a number sign opens a comment, which runs to the next line end or up to the next token. What is cut
from the text may not be there (`Lexer.Trap`); `Source.comments` gives the same comments from what is
passed over before each token. -/

namespace QueryDocs.Source

open Lexer (Halt latin)

/-- The bytes from one offset up to another one. -/
def bytesBetween (s : Source) (start stop : Nat) : Except Halt (List Char) :=
  if start ≤ stop ∧ stop ≤ s.bytes.length then
    return ((s.bytes.drop start).take (stop - start)).map latin
  else throw (.trap .slice)

/-- The comments from an offset up to the end of a gap between tokens. Each of them takes up some bytes of the
gap, so one round more than there are bytes is enough. -/
def gapComments (s : Source) (stop : Nat) : Nat → Nat → Except Halt (List Token)
  | 0, _ => throw (.trap .endless)
  | n + 1, offset => do
    match (← s.bytesBetween offset stop).findIdx? (· == '#') with
    | none => return []
    | some i => do
      let start := offset + i
      let line := (← s.bytesBetween start stop).takeWhile fun c => !isLineEnd c
      match s.slice? ⟨start + 1, start + line.length⟩ with
      | none => throw (.trap .slice)
      | some text => do
        let more ← s.gapComments stop n (start + line.length)
        return ⟨.comment, some text, ⟨start, start + line.length⟩⟩ :: more

/-- The comments before each of some tokens, from an offset on. -/
def commentsBefore (s : Source) : Nat → List Token → Except Halt (List Token)
  | _, [] => return []
  | offset, t :: ts => do
    let here ← s.gapComments t.span.start (s.bytes.length + 1) offset
    let more ← s.commentsBefore t.span.stop ts
    return here ++ more

/-- The comments of a source, as tokens whose value is the text after the number sign. -/
def readComments (s : Source) : Except Halt (List Token) := do
  s.commentsBefore 0 (← s.tokens.mapError .lexical)

end QueryDocs.Source
