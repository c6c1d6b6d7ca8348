import QueryDocs.Source
import QueryDocs.Token
import QueryDocs.Token.Block
import QueryDocs.Token.Number
import QueryDocs.Token.Quoted

/-! # Reading tokens

Between two tokens a text may hold trivia: spaces, tabs, line ends, commas and comments, which run
from a number sign to the end of the line, and a byte-order mark at the very start. `scan` passes
over trivia and reads one token; `TokenStream.ofSource` reads a whole text. `next` reads the token
after a given one and keeps no state of its own, so the answer depends on the text and the given
token alone. -/

namespace QueryDocs

open QueryDocs.Text

/-! ### Trivia -/

/-- Whether a character ends a line, and with it a comment. -/
def isLineEnd (c : Char) : Bool := c == '\n' || c == '\r'

/-- Whether a character counts for nothing between two tokens. -/
def isIgnored (c : Char) : Bool := c == ' ' || c == '\t' || c == ',' || isLineEnd c

/-- The byte-order mark. -/
def byteOrderMark : Char := '\ufeff'

/-- Passes over trivia at a given offset; `inComment` says whether a comment is open there. The
answer is the offset and the text at the first character that is no trivia. -/
def skipTrivia (inComment : Bool) (offset : Nat) : List Char → Nat × List Char
  | [] => (offset, [])
  | c :: cs =>
    if inComment then skipTrivia (!isLineEnd c) (offset + c.utf8Size) cs
    else if c = '#' then skipTrivia true (offset + 1) cs
    else if isIgnored c || (c == byteOrderMark && offset == 0) then
      skipTrivia false (offset + c.utf8Size) cs
    else (offset, c :: cs)

/-- The comments in the trivia at a given offset, as tokens whose value is the text after the number
sign. An open comment is given by its offset and its text so far, the last character first. -/
def triviaComments (opened : Option (Nat × List Char)) (offset : Nat) : List Char → List Token
  | [] => (opened.map (commentToken offset)).toList
  | c :: cs =>
    match opened with
    | some (start, text) =>
      if isLineEnd c then commentToken offset (start, text) :: triviaComments none (offset + 1) cs
      else triviaComments (some (start, c :: text)) (offset + c.utf8Size) cs
    | none =>
      if c = '#' then triviaComments (some (offset, [])) (offset + 1) cs
      else if isIgnored c || (c == byteOrderMark && offset == 0) then
        triviaComments none (offset + c.utf8Size) cs
      else []
where
  /-- The token of a comment that ends at a given offset. -/
  commentToken (stop : Nat) (opened : Nat × List Char) : Token :=
    ⟨.comment, some (String.ofList opened.2.reverse), ⟨opened.1, stop⟩⟩

/-! ### One token -/

/-- Reads the token whose first character is the given one, without trivia before it. The answer is
the token and the text after it. -/
def scanToken (offset : Nat) (c : Char) (cs : List Char) : Except LexError (Token × List Char) :=
  match Token.Kind.ofChar? c with
  | some mark => .ok (⟨mark, none, ⟨offset, offset + 1⟩⟩, cs)
  | none =>
    if c = '.' then
      match cs with
      | '.' :: '.' :: rest => .ok (⟨.spread, none, ⟨offset, offset + 3⟩⟩, rest)
      | _ => .error ⟨.loneDot, offset⟩
    else if c = '"' then
      match cs with
      | '"' :: '"' :: contents => do
        let (raw, stop, rest) ← Block.body offset [] (offset + 3) contents
        .ok (⟨.blockString, some (String.ofList (Block.value raw)), ⟨offset, stop⟩⟩, rest)
      | _ => do
        let (value, stop, rest) ← Quoted.body offset [] (offset + 1) cs
        .ok (⟨.string, some (String.ofList value), ⟨offset, stop⟩⟩, rest)
    else if c = '-' || c.isDigit then
      match Number.read (c :: cs) with
      | .ok r =>
        let kind := if Number.isFloat r.taken then Token.Kind.float else Token.Kind.int
        .ok (⟨kind, some (String.ofList r.taken), ⟨offset, offset + r.taken.length⟩⟩, r.rest)
      | .error (r, fault) => .error ⟨.malformedNumber fault, offset + r.taken.length⟩
    else if NameText.isStart c then
      let (name, rest) := NameText.split (c :: cs)
      .ok (⟨.name, some (String.ofList name), ⟨offset, offset + name.length⟩⟩, rest)
    else .error ⟨.unexpectedCharacter c, offset⟩

/-- Passes over trivia at a given offset and reads the token after it. -/
def scan (offset : Nat) (cs : List Char) : Except LexError (Token × List Char) :=
  match skipTrivia false offset cs with
  | (start, []) => .ok (Token.endOfText start, [])
  | (start, c :: rest) => scanToken start c rest

/-- The token after a given one. After the end there is nothing but the end; an offset inside a
character is reported as an unexpected replacement character. -/
def Source.next (source : Source) (previous : Token) : Except LexError Token :=
  if previous.isEnd then .ok (.endOfText previous.span.stop)
  else
    match land previous.span.stop source.chars with
    | .boundary rest => (scan previous.span.stop rest).map (·.1)
    | .inside => .error ⟨.unexpectedCharacter '\ufffd', previous.span.stop⟩
    | .beyond => .ok (.endOfText previous.span.stop)

/-! ### All tokens -/

/-- The tokens of a text in order, up to its end or to the first lexical error. -/
inductive TokenStream where
  /-- The text ends here. -/
  | finish (last : Token)
  /-- No token can be read here. -/
  | broken (error : LexError)
  /-- A token, and the tokens after it. -/
  | token (first : Token) (rest : TokenStream)
deriving Repr

namespace TokenStream

/-- The tokens of a text from an offset on. Each token takes at least one character, so more tokens
than `limit` are never reached when `limit` exceeds the length of the text. -/
def ofChars (limit : Nat) (offset : Nat) (cs : List Char) : TokenStream :=
  match limit with
  | 0 => .finish (.endOfText offset)
  | limit + 1 =>
    match scan offset cs with
    | .error e => .broken e
    | .ok (t, rest) => if t.isEnd then .finish t else .token t (ofChars limit t.span.stop rest)

/-- The tokens of a source. -/
def ofSource (source : Source) : TokenStream := ofChars (source.chars.length + 1) 0 source.chars

/-- The number of tokens, the last one not counted. -/
def length : TokenStream → Nat
  | .finish _ => 0
  | .broken _ => 0
  | .token _ rest => rest.length + 1

/-- The list of the tokens with the end of the text as the last one. -/
def toList : TokenStream → Except LexError (List Token)
  | .finish last => .ok [last]
  | .broken e => .error e
  | .token t rest => rest.toList.map (t :: ·)

end TokenStream

/-- The tokens of a source, the end of the text as the last one. -/
def Source.tokens (source : Source) : Except LexError (List Token) :=
  (TokenStream.ofSource source).toList

/-! ### Comments -/

/-- The comments of a text from an offset on, with the same bound on the number of tokens as in
`TokenStream.ofChars`. -/
def commentsFrom (limit : Nat) (offset : Nat) (cs : List Char) : Except LexError (List Token) :=
  match limit with
  | 0 => .ok []
  | limit + 1 => do
    let (t, rest) ← scan offset cs
    let here := triviaComments none offset cs
    if t.isEnd then .ok here
    else
      let more ← commentsFrom limit t.span.stop rest
      .ok (here ++ more)

/-- The comments of a source, as tokens whose value is the text after the number sign. -/
def Source.comments (source : Source) : Except LexError (List Token) :=
  commentsFrom (source.chars.length + 1) 0 source.chars

end QueryDocs
