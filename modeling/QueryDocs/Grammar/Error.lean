import QueryDocs.Token.Scan

/-! # Errors of the grammar

A text that is not a document either breaks off with a lexical error or holds a token that no
document can have at its place. The error names what could have stood there. -/

namespace QueryDocs

/-- What the grammar admits at some place. -/
inductive Expectation where
  /-- A token of a class. -/
  | kind (k : Token.Kind)
  /-- A name with a given spelling. -/
  | word (w : String)
  /-- The start of a definition. -/
  | definition
  /-- The name of a fragment, which is not `on`. -/
  | fragmentName
  /-- The word an operation starts with. -/
  | operationType
  /-- A value. -/
  | value
  /-- A value without variables. -/
  | constantValue
  /-- The name of an enumeration's member, which is not the name of another value. -/
  | enumValueName
  /-- A place where a directive can stand. -/
  | directiveLocation
deriving DecidableEq, Repr

/-- The wording for what is admitted. -/
def Expectation.describe : Expectation → String
  | .kind k => k.describe
  | .word w => "\"" ++ w ++ "\""
  | .definition => "definition"
  | .fragmentName => "fragment name"
  | .operationType => "\"query\", \"mutation\" or \"subscription\""
  | .value => "value"
  | .constantValue => "constant value"
  | .enumValueName => "enum value name"
  | .directiveLocation => "directive location"

/-- Why a text is not a document. -/
inductive ParseFault where
  /-- No token can be read at some place. -/
  | lexical (error : LexError)
  /-- A token stands where another is expected. -/
  | unexpected (expected : Expectation) (found : Token)
deriving DecidableEq, Repr

/-- The place of a fault: a lexical error has an empty span. -/
def ParseFault.span : ParseFault → Span
  | .lexical e => .empty e.offset
  | .unexpected _ found => found.span

/-- The wording for a fault, without its place. -/
def ParseFault.message : ParseFault → String
  | .lexical e => e.message
  | .unexpected expected found => "expected " ++ expected.describe ++ ", found " ++ found.describe

/-- Why a text is not a document, with the line and column where this shows. -/
structure ParseError where
  /-- The cause. -/
  fault : ParseFault
  /-- The line and column of its start. -/
  position : Position
deriving DecidableEq, Repr

namespace ParseError

/-- The place of the error. -/
def span (e : ParseError) : Span := e.fault.span

/-- The offset at which the error shows. -/
def offset (e : ParseError) : Nat := e.span.start

/-- The wording for the error. -/
def message (e : ParseError) : String := toString e.position ++ ": " ++ e.fault.message

end ParseError

end QueryDocs
