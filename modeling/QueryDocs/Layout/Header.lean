import QueryDocs.Layout.Document
import QueryDocs.Text.CharClass
import QueryDocs.Token.Lexer

/-! # Formatting a file

A printed document has no comments. Formatting a file keeps the comments before the first token, its
header, as they stand; comments behind that would be lost and are counted. The header and the gaps in it
are cut from the text, which may fail as for a lexer (`Lexer.Trap`). -/

namespace QueryDocs

open QueryDocs.Text
open Lexer (Halt Trap)

/-- Whether a character can stand between the comments of a header. -/
def isHeaderGap (c : Char) : Bool := isBlank c || c == ',' || c == byteOrderMark

/-- Goes on with a header that ends at an offset so far, given the comments behind it: the offset at
which the header ends, and the number of comments that are not in it. -/
def Source.headerFrom (source : Source) (stop : Nat) : List Token → Except Halt (Nat × Nat)
  | [] => return (stop, 0)
  | c :: cs =>
    match source.slice? ⟨stop, c.span.start⟩ with
    | none => throw (.trap .slice)
    | some gap =>
      if gap.toList.all isHeaderGap then source.headerFrom c.span.stop cs
      else return (stop, cs.length + 1)

/-- The offset at which the header of a source ends, and the number of comments behind it. -/
def Source.header (source : Source) : Except Halt (Nat × Nat) := do
  source.headerFrom 0 (← source.comments.mapError .lexical)

/-- The formatted text of a file, given the document in it and the end of its header. -/
def Source.formatted (source : Source) (stop : Nat) (document : Document) (style : Layout.Style) :
    Except Trap String :=
  let printed := document.print style
  if stop = 0 then return printed
  else
    match source.slice? ⟨0, stop⟩ with
    | none => throw .slice
    | some front => return front ++ "\n" ++ printed

end QueryDocs
