import QueryDocs.Span

/-! # Tokens

A document is read as a sequence of tokens: marks of punctuation, names and literals. Names and
literals carry a value; for a string literal it is the text the literal denotes. `startOfText` and
`endOfText` stand for the two ends of a text, and `comment` for a comment, which is never part of
the sequence itself. -/

namespace QueryDocs

/-- The lexical class of a token. -/
inductive Token.Kind where
  | startOfText
  | endOfText
  | comment
  | bang
  | dollar
  | leftParen
  | rightParen
  | spread
  | colon
  | equals
  | atSign
  | leftBracket
  | rightBracket
  | leftBrace
  | pipe
  | rightBrace
  | name
  | int
  | float
  | string
  | blockString
deriving DecidableEq, Repr

namespace Token.Kind

/-- The spelling of a mark of punctuation. -/
def spelling? : Kind → Option String
  | .bang => some "!"
  | .dollar => some "$"
  | .leftParen => some "("
  | .rightParen => some ")"
  | .spread => some "..."
  | .colon => some ":"
  | .equals => some "="
  | .atSign => some "@"
  | .leftBracket => some "["
  | .rightBracket => some "]"
  | .leftBrace => some "\x7b"
  | .pipe => some "|"
  | .rightBrace => some "\x7d"
  | _ => none

/-- Whether tokens of this class are marks of punctuation. -/
def isMark (k : Kind) : Bool := k.spelling?.isSome

/-- Whether tokens of this class carry a value in a sequence of tokens. -/
def hasValue : Kind → Bool
  | .name | .int | .float | .string | .blockString => true
  | _ => false

/-- The name of the class in messages: a mark is shown as its spelling in double quotes. -/
def describe (k : Kind) : String :=
  match k with
  | .startOfText => "<SOF>"
  | .endOfText => "<EOF>"
  | .comment => "Comment"
  | .name => "Name"
  | .int => "Int"
  | .float => "Float"
  | .string => "String"
  | .blockString => "BlockString"
  | k => "\"" ++ k.spelling?.getD "" ++ "\""

/-- The mark that is written as a single given character. -/
def ofChar? : Char → Option Kind
  | '!' => some .bang
  | '$' => some .dollar
  | '(' => some .leftParen
  | ')' => some .rightParen
  | ':' => some .colon
  | '=' => some .equals
  | '@' => some .atSign
  | '[' => some .leftBracket
  | ']' => some .rightBracket
  | '\x7b' => some .leftBrace
  | '|' => some .pipe
  | '\x7d' => some .rightBrace
  | _ => none

instance : ToString Kind := ⟨describe⟩

theorem spelling?_of_ofChar? {c : Char} {k : Kind} (h : ofChar? c = some k) :
    k.spelling? = some (String.ofList [c]) := by
  unfold ofChar? at h
  split at h <;> first | cases h; rfl | contradiction

end Token.Kind

/-- A token with the span it was read from. -/
structure Token where
  /-- The lexical class. -/
  kind : Token.Kind
  /-- The value of a name or a literal. -/
  value : Option String := none
  /-- The bytes the token was read from. -/
  span : Span
deriving DecidableEq, Repr

namespace Token

/-- The token before the first one. -/
def startOfText : Token := ⟨.startOfText, none, .empty 0⟩

/-- The token after the last one, at a given offset. -/
def endOfText (offset : Nat) : Token := ⟨.endOfText, none, .empty offset⟩

/-- Whether this is the token after the last one. -/
def isEnd (t : Token) : Bool := t.kind == .endOfText

/-- The value, empty for a token without one. -/
def text (t : Token) : String := t.value.getD ""

/-- Whether the token is a name with a given spelling. -/
def isWord (t : Token) (word : String) : Bool := t.kind == .name && t.text == word

/-- The token as messages show it: its class and, in double quotes, its value. -/
def describe (t : Token) : String :=
  match t.value with
  | some v => t.kind.describe ++ " \"" ++ v ++ "\""
  | none => t.kind.describe

instance : ToString Token := ⟨describe⟩

@[simp] theorem isEnd_endOfText (n : Nat) : (endOfText n).isEnd = true := rfl

@[simp] theorem isEnd_iff {t : Token} : t.isEnd = true ↔ t.kind = .endOfText := by simp [isEnd]

end Token

/-! ### Names

A name is a letter or an underscore, followed by letters, digits and underscores, all of them
ASCII. -/

namespace NameText

/-- Whether a name can start with a character. -/
def isStart (c : Char) : Bool := c == '_' || c.isAlpha

/-- Whether a name can go on with a character. -/
def isPart (c : Char) : Bool := c == '_' || c.isAlphanum

/-- Whether a text is a name. -/
def IsName (cs : List Char) : Prop :=
  ∃ c rest, cs = c :: rest ∧ isStart c = true ∧ rest.all isPart = true

/-- The longest run of name characters at the start of a text, and the text after it. -/
def split (cs : List Char) : List Char × List Char := (cs.takeWhile isPart, cs.dropWhile isPart)

theorem isPart_of_isStart {c : Char} (h : isStart c = true) : isPart c = true := by
  simp only [isStart, isPart, Char.isAlphanum, Bool.or_eq_true] at h ⊢
  rcases h with h | h
  · exact Or.inl h
  · exact Or.inr (Or.inl h)

theorem split_append (cs : List Char) : (split cs).1 ++ (split cs).2 = cs :=
  List.takeWhile_append_dropWhile

end NameText

end QueryDocs
