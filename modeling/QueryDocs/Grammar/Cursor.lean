import QueryDocs.Document.TypeRef
import QueryDocs.Grammar.Error

/-! # Rules

A rule of the grammar reads a part of a document from a place in a token stream. It looks at the
current token alone and takes tokens one at a time, so what it does depends on nothing behind the
first token that it does not take.

Repetitions carry a bound on the number of rounds. Every round takes a token, so a bound above the
number of tokens left is never reached. -/

namespace QueryDocs

/-- A place in a token stream. -/
structure Cursor where
  /-- The token that is looked at. -/
  current : Token
  /-- The tokens after it. -/
  rest : TokenStream
  /-- The end of the token before it. -/
  lastStop : Nat

/-- A rule of the grammar: it reads a part of a document and moves on, or fails. -/
abbrev Rule := StateT Cursor (Except ParseFault)

namespace Rule

/-! ### Single tokens -/

/-- Fails at the current token. -/
def fail {α : Type} (expected : Expectation) : Rule α := do
  throw (.unexpected expected (← get).current)

/-- Takes the current token. -/
def advance : Rule Unit := do
  let c ← get
  match c.rest with
  | .finish last => set (⟨last, c.rest, c.current.span.stop⟩ : Cursor)
  | .broken e => throw (.lexical e)
  | .token t rest => set (⟨t, rest, c.current.span.stop⟩ : Cursor)

/-- Whether the current token has a property. -/
def atToken (p : Token → Bool) : Rule Bool := do return p (← get).current

/-- Whether the current token is of a class. -/
def atKind (k : Token.Kind) : Rule Bool := atToken (·.kind == k)

/-- Whether the current token is a name with a given spelling. -/
def atWord (w : String) : Rule Bool := atToken (·.isWord w)

/-- Takes a token of a class. -/
def expect (k : Token.Kind) : Rule Unit := do
  if ← atKind k then advance else fail (.kind k)

/-- Takes a name with a given spelling. -/
def expectWord (w : String) : Rule Unit := do
  if ← atWord w then advance else fail (.word w)

/-- Takes the current token if it is of a class, and says whether it was. -/
def accept (k : Token.Kind) : Rule Bool := do
  if ← atKind k then
    advance
    return true
  else return false

/-- Takes a name. -/
def name : Rule Name := do
  let t := (← get).current
  if t.kind == .name then
    advance
    return ⟨t.text, t.span⟩
  else fail (.kind .name)

/-- Takes a name that is a word of a table, and tells what the word stands for. -/
def keyword {α : Type} (ofKeyword? : String → Option α) (expected : Expectation) : Rule α := do
  let t := (← get).current
  match if t.kind == .name then ofKeyword? t.text else none with
  | some x =>
    advance
    return x
  | none => fail expected

/-! ### Spans -/

/-- The start of the current token. -/
def start : Rule Nat := do return (← get).current.span.start

/-- The span from an offset to the end of the token taken last. -/
def spanFrom (start : Nat) : Rule Span := do return ⟨start, max (← get).lastStop start⟩

/-! ### Options and repetitions -/

/-- Applies a rule if the current token has a property. -/
def optional {α : Type} (p : Token → Bool) (rule : Rule α) : Rule (Option α) := do
  if ← atToken p then return some (← rule) else return none

/-- Applies a rule again and again while the current token has a property. -/
def repeatWhile {α : Type} (p : Token → Bool) (item : Rule α) : Nat → Rule (List α)
  | 0 => return []
  | limit + 1 => do
    if ← atToken p then
      let x ← item
      let xs ← repeatWhile p item limit
      return x :: xs
    else return []

/-- Applies a rule again and again up to a closing token, and takes that token. -/
def upTo {α : Type} (close : Token.Kind) (item : Rule α) (limit : Nat) : Rule (List α) := do
  let xs ← repeatWhile (fun t => t.kind != close) item limit
  expect close
  return xs

/-- One or more items between an opening and a closing token. -/
def between {α : Type} (limit : Nat) (opening : Token.Kind) (item : Rule α) (close : Token.Kind) :
    Rule (List α) := do
  expect opening
  let x ← item
  let xs ← upTo close item limit
  return x :: xs

/-- One or more items between an opening and a closing token, or nothing at all. -/
def optionalBetween {α : Type} (limit : Nat) (opening : Token.Kind) (item : Rule α)
    (close : Token.Kind) : Rule (List α) := do
  if ← atKind opening then between limit opening item close else return []

/-- One or more items with a mark between them. -/
def separated {α : Type} (limit : Nat) (mark : Token.Kind) (item : Rule α) : Rule (List α) := do
  let x ← item
  let xs ← repeatWhile (·.kind == mark) (do advance; item) limit
  return x :: xs

end Rule

end QueryDocs
