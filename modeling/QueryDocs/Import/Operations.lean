import QueryDocs.Grammar.Parse
import QueryDocs.Import.Expansion
import QueryDocs.Report
import QueryDocs.Walk.Ends

/-! # Operations of a file

A file provides operations: either a single one without a name, or any number of named ones. A file
that starts with a marker may provide none. Each operation is recorded with the whole text of the
file, so that the text and the name together select the operation. -/

namespace QueryDocs

/-- One operation of a file. -/
structure OperationRecord where
  /-- The name of the file, without directories and extension. -/
  file : String
  /-- The name of the operation, if it has one. -/
  name : Option String
  /-- What the operation does. -/
  type : OperationType
  /-- The text of the file. -/
  source : String
deriving DecidableEq, Repr

namespace OperationRecord

/-- Whether the operation has no name. -/
def isAnonymous (r : OperationRecord) : Bool := r.name.isNone

/-- Whether the operation has a given name. -/
def hasName (r : OperationRecord) (name : String) : Bool := r.name == some name

instance : ToString OperationRecord where
  toString r := r.file ++ ":" ++ r.name.getD "" ++ ":" ++ r.type.keyword

end OperationRecord

/-- How operations are taken from a file. -/
structure ImportOptions where
  /-- A file that starts with this text may provide no operations, unless the text is empty. -/
  marker : String := "#typespec"
  /-- Whether import lines are expanded. -/
  expand : Bool := true
deriving DecidableEq, Repr

/-- Why operations cannot be taken from a file. -/
inductive ImportError where
  /-- The file provides no operation and does not start with the marker. -/
  | noOperations (file : String)
  /-- Two operations of the file have no name. -/
  | multipleAnonymous (file : String)
  /-- An operation without a name is not the only one of the file. -/
  | mixedAnonymous (file : String)
  /-- The text is not a document. -/
  | grammar (error : ParseError)
  /-- The fragments cannot be told by their names. -/
  | fragments (error : FragmentError)
  /-- The text is not to be had. -/
  | expansion (error : ExpansionError)
deriving DecidableEq, Repr

/-- The visitor that notes what each operation is called and what it does. -/
def operationCollector : Visitor (Array (Option String × OperationType)) where
  node phase _ k n :=
    match phase, k, n with
    | .enter, .operation, op => do
      modify (·.push (op.title?, op.operation))
      return op
    | _, _, n => pure n

/-- The visitor notes an operation before the nodes inside it, and gives back every node as it is. -/
theorem operationCollector_opens (table : FragmentTable) : operationCollector.Opens table :=
  fun k _ _ _ => by cases k <;> rfl

/-- What the operations of a document are called and what they do, as a walk comes to them. -/
def Document.collectOperations (d : Document) :
    Except FragmentError (List (Option String × OperationType)) :=
  match d.walk operationCollector operationCollector_opens #[] with
  | (.ok _, operations) => .ok operations.toList
  | (.error e, _) => .error e

/-- The records of the operations of a text, of each of which it is known what it is called and what it
does. -/
def recordOperations (file text : String) (options : ImportOptions)
    (operations : List (Option String × OperationType)) : Except ImportError (List OperationRecord) :=
  let anonymous := operations.countP (·.1.isNone)
  if operations.isEmpty then
    if options.marker ≠ "" ∧ options.marker.toList.isPrefixOf text.toList then .ok []
    else .error (.noOperations file)
  else if 1 < anonymous then .error (.multipleAnonymous file)
  else if anonymous = 1 ∧ 1 < operations.length then .error (.mixedAnonymous file)
  else .ok (operations.map fun op => ⟨file, op.1, op.2, text⟩)

/-- The records of the operations of a text. -/
def importText (file text : String) (options : ImportOptions) :
    Except ImportError (List OperationRecord) :=
  match Source.parse ⟨text, some file⟩ with
  | .error e => .error (.grammar e)
  | .ok document =>
    match document.collectOperations with
    | .error e => .error (.fragments e)
    | .ok operations => recordOperations file text options operations

namespace FileStore

/-- The text that operations of a file are taken from. -/
def textFor (store : FileStore) (path : String) (options : ImportOptions) :
    Except ExpansionError String :=
  if options.expand then store.expand path
  else (store.read path).mapError (.unreadable path)

/-- The records of the operations of the file that a path leads to. -/
def importFile (store : FileStore) (path : String) (options : ImportOptions) :
    Except ImportError (List OperationRecord) :=
  match store.textFor path options with
  | .error e => .error (.expansion e)
  | .ok text => importText (Path.stem path) text options

end FileStore

/-! ### Reports -/

/-- The report on a lexical error; its message starts with the line and column. -/
def LexError.report (e : LexError) (source : Source) : Report where
  message := toString (source.locate e.offset) ++ ": " ++ e.message
  labels := [(.empty e.offset, "here")]

/-- The report on an error of the grammar. -/
def ParseError.report (e : ParseError) : Report :=
  match e.fault with
  | .lexical _ => {
      code := "sgql::syntax::lex"
      message := e.message
      labels := [(e.span, "here")] }
  | .unexpected .. => {
      code := "sgql::syntax::unexpected_token"
      message := e.message
      labels := [(e.span, "unexpected token")] }

/-- The report on fragments that cannot be told by their names. -/
def FragmentError.report (e : FragmentError) : Report :=
  match e with
  | .unnamed span => {
      code := "sgql::visit::missing_fragment_name"
      message := e.message
      labels := [(span, "unnamed fragment")] }
  | .duplicate _ first second => {
      code := "sgql::visit::duplicate_fragment"
      message := e.message
      labels := [(first, "first defined here"), (second, "defined again here")] }

/-- The report on a file that cannot be expanded. -/
def ExpansionError.report (e : ExpansionError) : Report :=
  match e with
  | .unreadable .. => { code := "sgql::import::io", message := e.message }
  | .cycle _ => { code := "sgql::import::cycle", message := e.message }

/-- The report on a file from which operations cannot be taken. -/
def ImportError.report : ImportError → Report
  | .noOperations file => {
      code := "sgql::import::no_operations"
      message := "no operation definitions in " ++ file
      help := "define at least one operation, or start the file with the no-operations marker" }
  | .multipleAnonymous file => {
      code := "sgql::import::multiple_anonymous"
      message := "multiple anonymous operations in " ++ file
      help := "a file may contain at most one anonymous operation" }
  | .mixedAnonymous file => {
      code := "sgql::import::mixed_anonymous"
      message := "anonymous operation mixed with named operations in " ++ file
      help := "name every operation in the file, or keep a single anonymous one" }
  | .grammar e => e.report
  | .fragments e => e.report
  | .expansion e => e.report

/-- The wording for an error. -/
def ImportError.message (e : ImportError) : String := e.report.message

end QueryDocs
