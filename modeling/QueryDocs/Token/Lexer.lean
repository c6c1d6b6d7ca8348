import QueryDocs.Token.Scan

/-! # Reading tokens from bytes

A `Lexer` stands at a byte offset of a source and reads the token after a given one, as `Source.next`
does, but from the bytes of the text: it looks at single bytes, goes on by single bytes and cuts what it
hands out from the text by offsets. All this can go wrong for reasons that are no lexical errors
(`Lexer.Trap`). A call on a lexer leaves it somewhere, also if the call fails, and the next call starts
from there. -/

namespace QueryDocs

open QueryDocs.Text

/-- A reader of a source, at a byte offset. -/
structure Lexer where
  /-- The source. -/
  source : Source
  /-- The offset of the next byte. -/
  pos : Nat := 0
deriving DecidableEq, Repr

namespace Lexer

/-- A defect that a call on a lexer runs into. -/
inductive Trap where
  /-- An offset does not fit into 32 bits. -/
  | overflow
  /-- A slice or a byte is taken that is not in the text, or a slice that does not start and end between
  two characters. -/
  | slice
  /-- A loop goes on without passing over a byte each time. -/
  | endless
deriving DecidableEq, Repr

/-- Why a call on a lexer gives no token. -/
inductive Halt where
  /-- There is no token here. -/
  | lexical (error : LexError)
  /-- The call does not work out at all. -/
  | trap (trap : Trap)
deriving DecidableEq, Repr

/-- What a lexer does: it ends with a result or halts, and it is left somewhere in either case. -/
abbrev Action := EStateM Halt Lexer

/-! ### Bytes -/

/-- A byte as the character with this number. -/
def latin (b : UInt8) : Char := Char.ofNat b.toNat

/-- Stops with a lexical error. -/
def fail {α : Type} (fault : LexFault) (offset : Nat) : Action α := throw (.lexical ⟨fault, offset⟩)

/-- The offset some bytes further on. -/
def ahead (n : Nat) : Action Nat := do
  let stop := (← get).pos + n
  if stop < UInt32.size then return stop else throw (.trap .overflow)

/-- The next byte. -/
def peek : Action (Option Char) := do
  let l ← get
  return l.source.bytes[l.pos]?.map latin

/-- The byte some bytes further on. -/
def peekAt (n : Nat) : Action (Option Char) := do
  let offset ← ahead n
  return (← get).source.bytes[offset]?.map latin

/-- Whether given bytes stand one behind another, some bytes further on; no more bytes are looked at than
are needed to tell. -/
def sees (n : Nat) : List Char → Action Bool
  | [] => return true
  | c :: cs => do if (← peekAt n) == some c then sees (n + 1) cs else return false

/-- Goes on by some bytes. -/
def advanceBy (n : Nat) : Action Unit := do
  let offset ← ahead n
  modify fun l => { l with pos := offset }

/-- Goes on by one byte. -/
def advance : Action Unit := advanceBy 1

/-- The byte at an offset that is in the text. -/
def byteAt (offset : Nat) : Action Char := do
  match (← get).source.bytes[offset]? with
  | some b => return latin b
  | none => throw (.trap .slice)

/-- The bytes from here on. -/
def bytesAhead : Action (List Char) := do
  let l ← get
  if l.pos ≤ l.source.bytes.length then return (l.source.bytes.drop l.pos).map latin
  else throw (.trap .slice)

/-- The text from an offset up to here. -/
def sliceFrom (start : Nat) : Action String := do
  let l ← get
  match l.source.slice? ⟨start, l.pos⟩ with
  | some text => return text
  | none => throw (.trap .slice)

/-- The text from an offset on. -/
def restFrom (start : Nat) : Action (List Char) := do
  match land start (← get).source.chars with
  | .boundary rest => return rest
  | _ => throw (.trap .slice)

/-- The character at an offset, if there is one. -/
def charAt (offset : Nat) : Action (Option Char) := do
  match land offset (← get).source.chars with
  | .boundary rest => return rest.head?
  | _ => return none

/-- The character at an offset where there is one. -/
def shownAt (offset : Nat) : Action Char := do
  match ← charAt offset with
  | some c => return c
  | none => throw (.trap .slice)

/-- Stops at a character that cannot stand at an offset. -/
def invalidCharacter {α : Type} (offset : Nat) : Action α := do
  let c ← charAt offset
  fail (.unexpectedCharacter (c.getD '\ufffd')) offset

/-! ### Loops -/

/-- Repeats a step until it gives a result, at most as often as told. -/
def loop {α β : Type} (step : β → Action (β ⊕ α)) : Nat → β → Action α
  | 0, _ => throw (.trap .endless)
  | n + 1, b => do
    match ← step b with
    | .inl b => loop step n b
    | .inr a => return a

/-- Repeats a step until it gives a result. As each step but the last one passes over a byte, there are no
more steps than bytes, and one more. -/
def repeating {α β : Type} (step : β → Action (β ⊕ α)) (b : β) : Action α := do
  loop step ((← get).source.bytes.length + 1) b

/-- Passes over the next byte if it satisfies a condition. -/
def skipStep (p : Char → Bool) (_ : Unit) : Action (Unit ⊕ Unit) := do
  match ← peek with
  | some c => if p c then do advance; return .inl () else return .inr ()
  | none => return .inr ()

/-- Passes over the bytes that satisfy a condition. -/
def skipWhile (p : Char → Bool) : Action Unit := repeating (skipStep p) ()

/-! ### Trivia, marks and names -/

/-- Passes over a blank, a comment or a byte-order mark at the start of the text. -/
def triviaStep (_ : Unit) : Action (Unit ⊕ Unit) := do
  match ← peek with
  | none => return .inr ()
  | some c =>
    if isIgnored c then do advance; return .inl ()
    else if c = '#' then do
      let bytes ← bytesAhead
      advanceBy (bytes.takeWhile fun c => !isLineEnd c).length
      return .inl ()
    else if c = '\u00ef' ∧ (← get).pos = 0 then
      if ← sees 1 ['\u00bb', '\u00bf'] then do advanceBy 3; return .inl ()
      else return .inr ()
    else return .inr ()

def skipTrivia : Action Unit := repeating triviaStep ()

def readSpread : Action Token := do
  let start := (← get).pos
  if ← sees 1 ['.', '.'] then do
    advanceBy 3
    return ⟨.spread, none, ⟨start, (← get).pos⟩⟩
  else fail .loneDot start

def readName : Action Token := do
  let start := (← get).pos
  skipWhile NameText.isPart
  let name ← sliceFrom start
  return ⟨.name, some name, ⟨start, (← get).pos⟩⟩

/-! ### Numbers -/

/-- Stops at a fault in a number. -/
def numberError {α : Type} (fault : NumberFault) : Action α := do
  fail (.malformedNumber fault) (← get).pos

/-- Stops where a digit is missing. -/
def expectedDigit {α : Type} : Action α := do
  numberError (.missingDigit (← charAt (← get).pos))

/-- Passes over one or more digits. -/
def readDigits : Action Unit := do
  if (← peek).any Char.isDigit then skipWhile Char.isDigit else expectedDigit

/-- Passes over a byte if it is one of those given. -/
def skipOne (p : Char → Bool) : Action Unit := do
  if (← peek).any p then advance

/-- Passes over a zero that no digit follows, or over digits of which the first is not a zero. -/
def readWhole : Action Unit := do
  match ← peek with
  | none => expectedDigit
  | some c =>
    if c = '0' then do
      advance
      if (← peek).any Char.isDigit then
        numberError (.digitAfterZero (← shownAt (← get).pos))
    else if c.isDigit then skipWhile Char.isDigit
    else expectedDigit

/-- Passes over a fraction, and tells whether there is one. -/
def readFraction : Action Bool := do
  if (← peek).any (· == '.') then do
    advance
    readDigits
    return true
  else return false

/-- Passes over an exponent, and tells whether there is one. -/
def readExponent : Action Bool := do
  if (← peek).any Number.isExponentMark then do
    advance
    skipOne fun s => s == '+' || s == '-'
    readDigits
    return true
  else return false

/-- Checks that the number does not run into a dot or a name. -/
def closeNumber : Action Unit := do
  if (← peek).any fun c => c == '.' || NameText.isStart c then
    numberError (.runsInto (← shownAt (← get).pos))

/-- Passes over a number, and tells whether it has a fraction or an exponent. -/
def passNumber : Action Bool := do
  skipOne (· == '-')
  readWhole
  let fraction ← readFraction
  let exponent ← readExponent
  closeNumber
  return fraction || exponent

def readNumber : Action Token := do
  let start := (← get).pos
  let isFloat ← passNumber
  let number ← sliceFrom start
  return ⟨if isFloat then .float else .int, some number, ⟨start, (← get).pos⟩⟩

/-! ### Strings -/

/-- The value of four hexadecimal digits and nothing else. -/
def fourHex? : List Char → Option Nat
  | [a, b, c, d] => Quoted.hex4? a b c d
  | _ => none

/-- Passes over four hexadecimal digits and gives their value, or stays where it is. -/
def readHex4 : Action (Option Nat) := do
  let l ← get
  match fourHex? (((l.source.bytes.drop l.pos).take 4).map latin) with
  | some n => do
    advanceBy 4
    return some n
  | none => return none

/-- Stops at an escape that denotes no character, and shows its start. -/
def unicodeError {α : Type} (escape : Nat) : Action α := do
  fail (.unicodeEscape (String.ofList ((← restFrom escape).take 6))) escape

/-- The second half of a surrogate pair. If there is none, the lexer stays where it is. -/
def readLow : Action (Option Nat) := do
  if ← sees 0 ['\\', 'u'] then do
    let resume := (← get).pos
    advanceBy 2
    match (← readHex4).filter Quoted.isLowSurrogate with
    | some low => return some low
    | none => do
      modify fun l => { l with pos := resume }
      return none
  else return none

/-- The character that an escape by code point denotes, behind its first two characters. -/
def readUnicode (escape : Nat) : Action Char := do
  match ← readHex4 with
  | none => unicodeError escape
  | some code =>
    if Quoted.isHighSurrogate code then do
      match ← readLow with
      | some low => return Quoted.pair code low
      | none => unicodeError escape
    else if Quoted.isLowSurrogate code then unicodeError escape
    else return Char.ofNat code

/-- The character that an escape denotes, behind its backslash. -/
def unescape (start escape : Nat) : Action Char := do
  match ← peek with
  | none => fail .unterminatedString start
  | some e =>
    match Quoted.letter? e with
    | some d => return d
    | none =>
      if e = 'u' then do
        advance
        readUnicode escape
      else fail (.unknownEscape (← shownAt (← get).pos)) escape

/-- Passes over an escape of a string that opens at an offset, and gives the character it denotes. -/
def readEscape (start : Nat) : Action Char := do
  let escape := (← get).pos
  advance
  let d ← unescape start escape
  if (← byteAt (escape + 1)) ≠ 'u' then advance
  return d

/-- One step in a string that opens at an offset. What the string denotes before the offset in the
state is kept there, if it is not just the text. -/
def quotedStep (start : Nat) (state : Option String × Nat) :
    Action ((Option String × Nat) ⊕ Token) := do
  let (cooked, chunk) := state
  match ← peek with
  | none => fail .unterminatedString start
  | some c =>
    if c = '"' then do
      let tail ← sliceFrom chunk
      advance
      let value := match cooked with
        | some before => before ++ tail
        | none => tail
      return .inr ⟨.string, some value, ⟨start, (← get).pos⟩⟩
    else if isLineEnd c then fail .unterminatedString start
    else if c = '\\' then do
      let before := cooked.getD "" ++ (← sliceFrom chunk)
      let d ← readEscape start
      return .inl (some (before.push d), (← get).pos)
    else if c.toNat < 0x20 ∧ c ≠ '\t' then invalidCharacter (← get).pos
    else do
      advance
      return .inl state

/-- One step in a block string that opens at an offset. Its contents before the offset in the state are
kept there. -/
def blockStep (start : Nat) (state : String × Nat) : Action ((String × Nat) ⊕ Token) := do
  let (raw, chunk) := state
  match ← peek with
  | none => fail .unterminatedBlockString start
  | some c =>
    if ← sees 0 Block.fence then do
      let raw := raw ++ (← sliceFrom chunk)
      advanceBy 3
      return .inr ⟨.blockString, some (String.ofList (Block.value raw.toList)), ⟨start, (← get).pos⟩⟩
    else if ← sees 0 ('\\' :: Block.fence) then do
      let raw := raw ++ (← sliceFrom chunk) ++ String.ofList Block.fence
      advanceBy 4
      return .inl (raw, (← get).pos)
    else if c.toNat < 0x20 ∧ c ≠ '\t' ∧ c ≠ '\n' ∧ c ≠ '\r' then invalidCharacter (← get).pos
    else do
      advance
      return .inl state

def readQuoted : Action Token := do
  let start := (← get).pos
  advance
  repeating (quotedStep start) (none, (← get).pos)

def readBlock : Action Token := do
  let start := (← get).pos
  advanceBy 3
  repeating (blockStep start) ("", (← get).pos)

def readString : Action Token := do
  if ← sees 1 ['"', '"'] then readBlock else readQuoted

/-! ### Tokens -/

/-- The token that starts here. -/
def readHere : Action Token := do
  let start := (← get).pos
  match ← peek with
  | none => return .endOfText start
  | some c =>
    match Token.Kind.ofChar? c with
    | some mark => do
      advance
      return ⟨mark, none, ⟨start, (← get).pos⟩⟩
    | none =>
      if c = '.' then readSpread
      else if c = '"' then readString
      else if c = '-' || c.isDigit then readNumber
      else if NameText.isStart c then readName
      else invalidCharacter start

/-- The next token, from here on. -/
def readToken : Action Token := do
  skipTrivia
  readHere

/-- The token after a given one. -/
def next (previous : Token) : Action Token := do
  if previous.isEnd then return .endOfText previous.span.stop
  else do
    modify fun l => { l with pos := previous.span.stop }
    readToken

/-- A lexer at the start of a source. -/
def ofSource (source : Source) : Lexer := ⟨source, 0⟩

/-- The answer to a call on a lexer, and the lexer after it. -/
def pull (l : Lexer) (previous : Token) : Except Halt Token × Lexer :=
  match next previous l with
  | .ok t l' => (.ok t, l')
  | .error h l' => (.error h, l')

/-- The answers to calls on one lexer, one after another. -/
def pulls (l : Lexer) : List Token → List (Except Halt Token)
  | [] => []
  | p :: ps => (l.pull p).1 :: (l.pull p).2.pulls ps

end Lexer

end QueryDocs
