import QueryDocs.Document
import QueryDocs.Grammar.TypeSystem

/-! # Reading documents

`Source.parse` reads a whole text as a document. Keywords are names like any other, so they can
still name fields and arguments. The first token that no document can have at its place ends the
reading, and so does a lexical error, as soon as the token before it has been taken. -/

namespace QueryDocs

namespace Rule

/-- A definition that cannot be executed, behind its description. -/
def typeSystemDefinition (limit : Nat) (description : Option StringValue) : Rule Definition := do
  let start ← startOf description
  let t := (← get).current
  if t.isWord "schema" then return .schema (← schema limit start description)
  else if t.isWord "directive" then
    return .directive (← directiveDefinition limit start description)
  else return .type (← typeDefinition limit start description)

/-- Whether a token starts an operation. -/
def startsOperation (t : Token) : Bool :=
  t.kind == .leftBrace || (t.kind == .name && (OperationType.ofKeyword? t.text).isSome)

/-- A definition of any kind. -/
def definition (limit : Nat) : Rule Definition := do
  let t := (← get).current
  if startsOperation t then return .operation (← operation limit)
  else if isString t then
    let description ← stringValue
    typeSystemDefinition limit (some description)
  else if t.isWord "fragment" then return .fragment (← fragment limit)
  else if t.isWord "extend" then return .extension (← extension limit)
  else typeSystemDefinition limit none

/-- A whole document, from the start of a text to its end. -/
def document (limit : Nat) : Rule Document := do
  advance
  let definitions ← repeatWhile (fun t => !t.isEnd) (definition limit) limit
  return ⟨definitions, ⟨0, (← get).current.span.stop⟩⟩

end Rule

/-- The document that a token stream denotes. -/
def TokenStream.parse (tokens : TokenStream) : Except ParseFault Document :=
  (Rule.document (tokens.length + 1)).run' ⟨.startOfText, tokens, 0⟩

/-- The document that a source denotes. -/
def Source.parse (source : Source) : Except ParseError Document :=
  match (TokenStream.ofSource source).parse with
  | .ok document => .ok document
  | .error fault => .error ⟨fault, source.locate fault.span.start⟩

end QueryDocs
