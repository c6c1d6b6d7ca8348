import QueryDocs.Token
import QueryDocs.Token.Block

/-! # Pieces of printed text

A printed document is a sequence of pieces: tokens, each with its spelling, and blanks between
them. The tokens of a printed text can thus be told without reading it. -/

namespace QueryDocs.Layout

/-- How a printed document is indented. -/
structure Style where
  /-- The number of spaces for one level. -/
  indentSize : Nat := 2
  /-- Whether a level is one tab instead. -/
  useTabs : Bool := false
deriving DecidableEq, Repr

/-- The indentation of a level. -/
def Style.margin (style : Style) (level : Nat) : List Char :=
  if style.useTabs then List.replicate level '\t' else List.replicate (level * style.indentSize) ' '

/-- How a string literal is written. -/
inductive StringForm where
  /-- In double quotes, with escapes. -/
  | quoted
  /-- As a block string on one line. -/
  | oneLine
  /-- As a block string whose lines stand below the opening quotes, behind a margin. -/
  | lines (margin : List Char)
deriving DecidableEq, Repr

/-- A piece of printed text. -/
inductive Piece where
  /-- Spaces, line ends and commas. -/
  | blank (text : String)
  /-- A mark of punctuation. -/
  | mark (kind : Token.Kind)
  /-- A name or a keyword. -/
  | word (text : String)
  /-- An integer literal. -/
  | int (text : String)
  /-- A floating-point literal. -/
  | float (text : String)
  /-- A literal for a text. -/
  | string (form : StringForm) (text : String)
deriving DecidableEq, Repr

/-! ### String literals -/

/-- A character inside double quotes. -/
def quotedChar (c : Char) : List Char :=
  match c with
  | '"' => ['\\', '"']
  | '\\' => ['\\', '\\']
  | '\n' => ['\\', 'n']
  | '\r' => ['\\', 'r']
  | '\t' => ['\\', 't']
  | '\x08' => ['\\', 'b']
  | '\x0c' => ['\\', 'f']
  | c =>
    if c.toNat < 0x20 then
      ['\\', 'u', '0', '0', Nat.digitChar (c.toNat / 16), (Nat.digitChar (c.toNat % 16)).toUpper]
    else [c]

/-- A text in double quotes. -/
def quoted (text : List Char) : List Char := '"' :: text.flatMap quotedChar ++ ['"']

/-- A text inside a block string: a backslash is put before three double quotes. -/
def blockText : List Char → List Char
  | [] => []
  | '"' :: '"' :: '"' :: cs => '\\' :: '"' :: '"' :: '"' :: blockText cs
  | c :: cs => c :: blockText cs

theorem blockText_fence (cs : List Char) :
    blockText (Block.fence ++ cs) = '\\' :: (Block.fence ++ blockText cs) := by
  simp only [Block.fence, List.cons_append, List.nil_append]
  rw [blockText]

/-- Splits a text at line feeds. -/
def splitLines : List Char → List (List Char)
  | [] => [[]]
  | c :: cs =>
    if c = '\n' then [] :: splitLines cs
    else
      match splitLines cs with
      | [] => [[c]]
      | line :: rest => (c :: line) :: rest

/-- A line of a block string behind its margin; an empty line stays empty. -/
def marginLine (margin line : List Char) : List Char :=
  if line.isEmpty then ['\n'] else '\n' :: margin ++ blockText line

/-- A string literal in a given form. -/
def literal (form : StringForm) (text : List Char) : List Char :=
  match form with
  | .quoted => quoted text
  | .oneLine => Block.fence ++ blockText text ++ Block.fence
  | .lines margin =>
    Block.fence ++ (splitLines text).flatMap (marginLine margin) ++ '\n' :: margin ++ Block.fence

/-- Whether a text can be written as a block string on one line. -/
def fitsOneLine (text : List Char) : Bool :=
  !text.any (fun c => c == '\n' || c == '\r') && !Block.isBlankLine text
    && text.getLast? != some '"' && text.getLast? != some '\\'

/-- Whether a text can be written as a block string with its lines behind a margin, so that taking
away the common indentation and the blank ends leads back to it. -/
def fitsLines (text : List Char) : Bool :=
  let ls := splitLines text
  !text.contains '\r'
    && !(ls.head?.any Block.isBlankLine) && !(ls.getLast?.any Block.isBlankLine)
    && ls.any (fun l => !Block.isBlankLine l && !(l.head?.any Block.isIndent))

/-- The form in which a text is written: as a block string where one is asked for and can be read
back, and in double quotes otherwise. -/
def StringForm.choose (margin : List Char) (block : Bool) (text : List Char) : StringForm :=
  if !block then .quoted
  else if fitsOneLine text then .oneLine
  else if fitsLines text then .lines margin
  else .quoted

/-! ### Spelling -/

namespace Piece

/-- The spelling of a piece. -/
def chars : Piece → List Char
  | .blank text => text.toList
  | .mark kind => (kind.spelling?.getD "").toList
  | .word text => text.toList
  | .int text => text.toList
  | .float text => text.toList
  | .string form text => literal form text.toList

end Piece

/-- The text that pieces make up. -/
def text (pieces : List Piece) : String := String.ofList (pieces.flatMap Piece.chars)

theorem text_toList (pieces : List Piece) : (text pieces).toList = pieces.flatMap Piece.chars := by
  simp [text]

end QueryDocs.Layout
