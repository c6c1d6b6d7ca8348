import QueryDocs.Document
import QueryDocs.Parser.TypeSystem

/-! # Parsing documents

`Source.runParser` reads a whole text as a document, with a parser that starts in front of it. -/

namespace QueryDocs

namespace Parser

/-- A definition that cannot be executed, behind its description. -/
def typeSystemDefinition (description : Option StringValue) : Action Definition := do
  let start ← startOf description
  if ← atWord "schema" then return .schema (← schema start description)
  else if ← atWord "directive" then return .directive (← directiveDefinition start description)
  else return .type (← typeDefinition start description)

/-- A definition of any kind. -/
def definition : Action Definition := do
  let t := (← get).current
  match t.kind with
  | .leftBrace => return .operation (← operation)
  | .string | .blockString =>
    let description ← description
    typeSystemDefinition description
  | .name =>
    match t.text with
    | "query" | "mutation" | "subscription" => return .operation (← operation)
    | "fragment" => return .fragment (← fragment)
    | "extend" => return .extension (← extension)
    | _ => typeSystemDefinition none
  | _ => fail .definition

/-- A round of the loop over the definitions of a document. -/
def definitionRound : Action (Option Definition) := roundWhile (fun t => !t.isEnd) definition

/-- A whole document, from the start of a text to its end. -/
def document : Action Document := do
  advance
  let definitions ← loop definitionRound
  return ⟨definitions, ⟨0, (← get).current.span.stop⟩⟩

end Parser

/-- The document that a source denotes, read by a parser, if the parser ends. -/
def Source.runParser (source : Source) : Option (Except ParseError Document) :=
  (Parser.document (.ofSource source)).map fun r =>
    r.1.mapError fun fault => ⟨fault, source.locate fault.span.start⟩

end QueryDocs
