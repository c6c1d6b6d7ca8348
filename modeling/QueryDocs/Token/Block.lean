import QueryDocs.Token.Error

/-! # Block strings

The text between two groups of three double quotes. It may run over several lines, and its only
escape is a backslash before three quotes. The value of a block string does not depend on how deep
the block is indented: the indentation shared by its lines and the blank lines at its two ends are
left out. -/

namespace QueryDocs.Block

/-- Three double quotes. -/
def fence : List Char := ['"', '"', '"']

/-- Splits a text into lines at line feeds, carriage returns, and pairs of the two. -/
def lines : List Char → List (List Char)
  | [] => [[]]
  | '\r' :: '\n' :: cs => [] :: lines cs
  | c :: cs =>
    if c = '\n' ∨ c = '\r' then [] :: lines cs
    else
      match lines cs with
      | [] => [[c]]
      | line :: rest => (c :: line) :: rest

/-- Whether a character indents a line. -/
def isIndent (c : Char) : Bool := c == ' ' || c == '\t'

/-- Whether a line holds nothing but indentation. -/
def isBlankLine (line : List Char) : Bool := line.all isIndent

/-- The number of spaces and tabs a line starts with. -/
def indentation (line : List Char) : Nat := (line.takeWhile isIndent).length

/-- The least indentation of the lines that are not blank, zero if there is none. -/
def commonIndentation (ls : List (List Char)) : Nat :=
  (((ls.filter fun l => !isBlankLine l).map indentation).min?).getD 0

/-- Takes the common indentation away from all lines but the first. -/
def dedent : List (List Char) → List (List Char)
  | [] => []
  | first :: rest => first :: rest.map (·.drop (commonIndentation rest))

/-- Leaves out the blank lines at the two ends. -/
def trimBlankLines (ls : List (List Char)) : List (List Char) :=
  ((ls.dropWhile isBlankLine).reverse.dropWhile isBlankLine).reverse

/-- The text that the raw contents of a block string denote. -/
def value (raw : List Char) : List Char :=
  ['\n'].intercalate (trimBlankLines (dedent (lines raw)))

/-- Reads the rest of a block string whose opening quotes are at the offset `opening`. The current
offset is `offset`, and `raw` holds the contents so far, the last character first. The answer is the
raw contents, the offset after the closing quotes and the text from there on. -/
def body (opening : Nat) (raw : List Char) (offset : Nat) :
    List Char → Except LexError (List Char × Nat × List Char)
  | [] => .error ⟨.unterminatedBlockString, opening⟩
  | '"' :: '"' :: '"' :: cs => .ok (raw.reverse, offset + 3, cs)
  | '\\' :: '"' :: '"' :: '"' :: cs => body opening (fence ++ raw) (offset + 4) cs
  | c :: cs =>
    if c.toNat < 0x20 ∧ c ≠ '\t' ∧ c ≠ '\n' ∧ c ≠ '\r' then .error ⟨.unexpectedCharacter c, offset⟩
    else body opening (c :: raw) (offset + c.utf8Size) cs

theorem body_fence (opening offset : Nat) (raw cs : List Char) :
    body opening raw offset (fence ++ cs) = .ok (raw.reverse, offset + 3, cs) := by
  simp only [fence, List.cons_append, List.nil_append]
  rw [body]

theorem body_escape (opening offset : Nat) (raw cs : List Char) :
    body opening raw offset ('\\' :: fence ++ cs) = body opening (fence ++ raw) (offset + 4) cs := by
  simp only [fence, List.cons_append, List.nil_append]
  rw [body]
  rfl

example : value "\n    a\r\n      b\n\n  ".toList = "a\n  b".toList := by rfl

end QueryDocs.Block
