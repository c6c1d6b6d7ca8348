import QueryDocs.Catalog
import QueryDocs.Command.Arguments
import QueryDocs.Layout.Header

/-! # Running commands

A command reads files from a store, writes lines to its two outputs and may replace the text of
files. It ends with an exit code, which is 0 where all went well and 1 where something is wrong with
a document; where a file cannot be read or cannot be written it breaks off. -/

namespace QueryDocs.Command

/-- What a command has done so far. -/
structure Session where
  /-- The files as they are now. -/
  store : FileStore
  /-- The text of the standard output. -/
  stdout : String := ""
  /-- The text of the error output. -/
  stderr : String := ""
  /-- The files that were written, by the paths used, with their new texts. -/
  written : List (String × String) := []

/-- Why a command breaks off. -/
inductive Breakdown where
  /-- A file cannot be read. -/
  | unreadable (path : String)
  /-- A file cannot be given another text. -/
  | unwritable (path : String)
  /-- Something is to be cut from a text that is not there. -/
  | trap (trap : Lexer.Trap)
deriving DecidableEq, Repr

/-- The wording for a breakdown. -/
def Breakdown.message : Breakdown → String
  | .unreadable path => "failed to read " ++ path
  | .unwritable path => "failed to write " ++ path
  | .trap _ => "no such part of the text"

/-- A part of a command. -/
abbrev Step := ExceptT Breakdown (StateM Session)

/-- Writes to the standard output. -/
def put (text : String) : Step Unit := modify fun s => { s with stdout := s.stdout ++ text }

/-- Writes a line to the standard output. -/
def say (line : String) : Step Unit := put (line ++ "\n")

/-- Writes to the error output. -/
def warn (text : String) : Step Unit := modify fun s => { s with stderr := s.stderr ++ text }

/-- The source in a file. -/
def readSource (path : String) : Step Source := do
  match (← get).store.read path with
  | .ok text => return ⟨text, some path⟩
  | .error _ => throw (.unreadable path)

/-- A text with blanks behind it up to a number of characters. -/
def padRight (width : Nat) (text : String) : String :=
  text ++ String.ofList (List.replicate (width - text.length) ' ')

/-! ### The commands -/

/-- Checks one file, and says whether it is in order. -/
def checkFile (verbose : Bool) (path : String) : Step Bool := do
  if verbose then say ("Checking " ++ path)
  let source ← readSource path
  let fault : Option Report := match source.parse with
    | .error e => some e.report
    | .ok document =>
      match document.fragmentTable with
      | .error e => some e.report
      | .ok _ => none
  match fault with
  | none =>
    if verbose then say ("OK " ++ path)
    return true
  | some report =>
    warn (report.render (some path))
    warn ("Error " ++ path ++ "\n")
    return false

/-- Checks files. -/
def check (verbose quiet : Bool) (files : List String) : Step Nat := do
  let failed := (← files.mapM (checkFile verbose)).countP (!·)
  if 0 < failed then
    warn s!"Failed: {failed} of {files.length} file(s) failed\n"
    return 1
  if !quiet then say s!"Success: {files.length} file(s) checked"
  return 0

/-- Adds the operations of one file to a catalog, and says whether that went well. A report on the
text of a file names the file. -/
def collectFile (options : ImportOptions) (c : Catalog) (path : String) :
    Step (Catalog × Bool) := do
  match (← get).store.importFile path options with
  | .ok records => return (c.extend records, true)
  | .error e =>
    warn (e.report.render (some path))
    return (c, false)

/-- A line for an operation. -/
def operationLine (r : OperationRecord) : String :=
  padRight 24 r.file ++ " " ++ padRight 32 (r.name.getD "<anonymous>") ++ " " ++ r.type.keyword

/-- Lists the operations of files. -/
def operations (verbose quiet : Bool) (files : List String) (json : Bool)
    (options : ImportOptions) : Step Nat := do
  let (catalog, ok) ← files.foldlM (fun (c, ok) path => do
    let (c, fine) ← collectFile options c path
    return (c, ok && fine)) (Catalog.empty, true)
  if json then say (Json.array (catalog.toList.map OperationRecord.toJson)).pretty
  else if !quiet then
    put (String.join (catalog.toList.map fun r => operationLine r ++ "\n"))
    if verbose then say s!"{catalog.size} operation(s)"
  return if ok then 0 else 1

/-- Compares the formatted text of a file with the text it has, and says whether they are the
same. -/
def compareFile (verbose : Bool) (path : String) (same : Bool) : Step Bool := do
  if !same then say ("Would format " ++ path)
  else if verbose then say ("OK " ++ path)
  return same

/-- Stores the formatted text of a file. -/
def storeFile (verbose quiet : Bool) (path text : String) (same : Bool) : Step Unit := do
  if same then
    if verbose then say ("Unchanged " ++ path)
  else if (← get).store.writable path then
    modify fun s =>
      { s with store := s.store.overwrite path text, written := s.written ++ [(path, text)] }
    if !quiet then say ("Formatted " ++ path)
  else throw (.unwritable path)

/-- Shows, compares or stores the formatted text of a file that has another text or the same one, and says
whether all is well. -/
def useFormatted (verbose quiet : Bool) (mode : FormatMode) (path old text : String) : Step Bool := do
  match mode with
  | .show =>
    put text
    return true
  | .check => compareFile verbose path (text == old)
  | .write =>
    storeFile verbose quiet path text (text == old)
    return true

/-- Formats one file, and says whether all went well. A file that has comments to lose is neither
stored nor compared. -/
def formatFile (verbose quiet : Bool) (mode : FormatMode) (style : Layout.Style) (path : String) :
    Step Bool := do
  let source ← readSource path
  match source.parse with
  | .error e =>
    warn (e.report.render (some path))
    return false
  | .ok document =>
    match source.header with
    | .error (.lexical e) =>
      warn ((e.report source).render (some path))
      return false
    | .error (.trap t) => throw (.trap t)
    | .ok (stop, lost) =>
      if mode ≠ .show ∧ 0 < lost then
        warn s!"Skipped {path} ({lost} comment(s) after the first definition would be lost)\n"
        return false
      else
        match source.formatted stop document style with
        | .error t => throw (.trap t)
        | .ok text => useFormatted verbose quiet mode path source.body text

/-- Formats files. -/
def format (verbose quiet : Bool) (files : List String) (mode : FormatMode)
    (style : Layout.Style) : Step Nat := do
  let fine ← files.mapM (formatFile verbose quiet mode style)
  return if fine.all id then 0 else 1

/-- Lists the tokens of a file. -/
def tokens (path : String) : Step Nat := do
  let source ← readSource path
  match source.tokens with
  | .error e =>
    warn ((e.report source).render (some path))
    return 1
  | .ok ts =>
    put (String.join (ts.map fun t =>
      padRight 8 (toString (source.locate t.span.start)) ++ " " ++ t.describe ++ "\n"))
    return 0

/-- Carries out a command line. -/
def Invocation.steps (i : Invocation) : Step Nat :=
  let verbose := i.verbose && !i.quiet
  match i.task with
  | .check files => check verbose i.quiet files
  | .operations files json options => operations verbose i.quiet files json options
  | .format files mode style => format verbose i.quiet files mode style
  | .tokens file => tokens file

/-- The exit code of a command line on a store, with what has been done. -/
def Invocation.run (i : Invocation) (store : FileStore) : Except Breakdown Nat × Session :=
  (i.steps.run.run { store }).run

end QueryDocs.Command
