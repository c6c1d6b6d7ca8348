import QueryDocs.Document.TypeRef
import QueryDocs.Grammar.Error

/-! # Parsers

A parser stands at a token of a source and asks for the next one when it goes on; no token is read before
it is asked for. Its rules read the parts of a document as the rules over a token stream do (`Rule`), but
nothing bounds how often a loop goes round or how deeply rules call each other. A run that never ends has
no answer. Where rules are recursive they are called as methods of the parser that has come there, such as
`(· |>.loop round)`. -/

namespace QueryDocs

/-! ### Asking for tokens -/

/-- A source whose tokens are asked for one by one. -/
structure Feed where
  /-- The source. -/
  source : Source
  /-- The tokens behind which the next one has been asked for, the first call first. -/
  asked : List Token := []
deriving DecidableEq, Repr

namespace Feed

/-- Asks for the token behind a given one. -/
def next (f : Feed) (previous : Token) : Except LexError Token × Feed :=
  (f.source.next previous, { f with asked := f.asked ++ [previous] })

/-- Asks for all tokens behind a given one, each of them behind the one before it, up to the end. -/
def tokens (f : Feed) (previous : Token) : Option (Except LexError (List Token) × Feed) := do
  match f.next previous with
  | (.error e, f') => return (.error e, f')
  | (.ok t, f') =>
    if t.isEnd then return (.ok [t], f')
    else
      let (ts, last) ← f' |>.tokens t
      return (ts.map (t :: ·), last)
partial_fixpoint

end Feed

/-- A parser of a source, at one of its tokens. -/
structure Parser extends Feed where
  /-- The token that is looked at. -/
  current : Token := .startOfText
  /-- The end of the token before it. -/
  lastStop : Nat := 0
deriving DecidableEq, Repr

namespace Parser

/-- What a parser does: it ends with a result or a fault and stands somewhere, or it does not end. -/
abbrev Action := ExceptT ParseFault (StateT Parser Option)

/-- A parser at the start of a source. -/
def ofSource (source : Source) : Parser := { source }

/-! ### Single tokens -/

/-- Fails at the current token. -/
def fail {α : Type} (expected : Expectation) : Action α := do
  throw (.unexpected expected (← get).current)

/-- Goes on to the next token. -/
def advance : Action Unit := do
  let p ← get
  match p.next p.current with
  | (.ok t, feed) => set (⟨feed, t, p.current.span.stop⟩ : Parser)
  | (.error e, feed) =>
    set { p with toFeed := feed }
    throw (.lexical e)

/-- Whether the current token has a property. -/
def atToken (p : Token → Bool) : Action Bool := do return p (← get).current

/-- Whether the current token is of a class. -/
def atKind (k : Token.Kind) : Action Bool := atToken (·.kind == k)

/-- Whether the current token is a name with a given spelling. -/
def atWord (w : String) : Action Bool := atToken (·.isWord w)

/-- Takes a token of a class. -/
def expect (k : Token.Kind) : Action Unit := do
  if ← atKind k then advance else fail (.kind k)

/-- Takes a name with a given spelling. -/
def expectWord (w : String) : Action Unit := do
  if ← atWord w then advance else fail (.word w)

/-- Takes the current token if it is of a class, and says whether it was. -/
def accept (k : Token.Kind) : Action Bool := do
  if ← atKind k then
    advance
    return true
  else return false

/-- Takes a name. -/
def name : Action Name := do
  let t := (← get).current
  if t.kind == .name then
    advance
    return ⟨t.text, t.span⟩
  else fail (.kind .name)

/-- Takes a name that is a word of a table, and tells what the word stands for. -/
def keyword {α : Type} (ofKeyword? : String → Option α) (expected : Expectation) : Action α := do
  let t := (← get).current
  match if t.kind == .name then ofKeyword? t.text else none with
  | some x =>
    advance
    return x
  | none => fail expected

/-! ### Spans -/

/-- The start of the current token. -/
def start : Action Nat := do return (← get).current.span.start

/-- The span from an offset to the end of the token taken last. -/
def spanFrom (start : Nat) : Action Span := do return ⟨start, max (← get).lastStop start⟩

/-! ### Options and loops -/

section Loops
variable {α : Type}

/-- Applies a rule if the current token has a property. -/
def optional (p : Token → Bool) (item : Action α) : Action (Option α) := do
  if ← atToken p then return some (← item) else return none

/-- Goes round until a round gives nothing, and collects what the rounds before it give. -/
def loop (round : Action (Option α)) : Action (List α) := do
  match ← round with
  | none => return []
  | some x =>
    let xs ← (· |>.loop round)
    return x :: xs
partial_fixpoint

/-- A round of a loop that goes on while the current token has a property. -/
def roundWhile (p : Token → Bool) (item : Action α) : Action (Option α) := optional p item

/-- A round of a loop that goes on behind a mark. -/
def roundBehind (mark : Token.Kind) (item : Action α) : Action (Option α) := do
  if ← accept mark then return some (← item) else return none

/-- A round of a loop that goes on up to a closing token, and takes it. -/
def roundUntil (close : Token.Kind) (item : Action α) : Action (Option α) := do
  if ← accept close then return none else return some (← item)

/-- One or more items between an opening and a closing token. -/
def many (opening : Token.Kind) (item : Action α) (close : Token.Kind) : Action (List α) := do
  expect opening
  let x ← item
  let xs ← loop (roundUntil close item)
  return x :: xs

/-- One or more items between an opening and a closing token, or nothing at all. -/
def optionalMany (opening : Token.Kind) (item : Action α) (close : Token.Kind) : Action (List α) := do
  if ← atKind opening then many opening item close else return []

/-- One or more items with a mark between them. -/
def separated (mark : Token.Kind) (item : Action α) : Action (List α) := do
  let x ← item
  let xs ← loop (roundBehind mark item)
  return x :: xs

end Loops

end Parser

end QueryDocs
