import QueryDocs.Import.Operations
import QueryDocs.Layout.Piece

/-! # Arguments of the command line

A command line names a command, its options, and the files to work on. Options start with dashes; a
long option may have its value behind an equals sign or as the next argument, short options can be
written together, and behind a lone double dash everything is a file. Arguments are read from left
to right, and the first fault ends the reading. The value of an option is looked at when the next
option or file has been told from it. -/

namespace QueryDocs.Command

/-- Why a command line is not obeyed. -/
inductive UsageError where
  /-- There are no arguments. -/
  | nothing
  /-- Help is asked for. -/
  | help
  /-- The version is asked for. -/
  | version
  /-- There is no command. -/
  | missingCommand
  /-- There is no command of that name. -/
  | unknownCommand
  /-- There is no such option, or there are too many files. -/
  | unknownArgument
  /-- There is no file. -/
  | missingFile
  /-- An option is given twice, or two options exclude each other. -/
  | conflict
  /-- An option has no value, or a file has the empty name. -/
  | missingValue
  /-- An option that has no value is given one. -/
  | needlessValue
  /-- The value of an option is not a number. -/
  | invalidNumber
deriving DecidableEq, Repr

/-- Options without a value. -/
inductive Flag where
  | verbose
  | quiet
  | json
  | noImports
  | write
  | check
  | tabs
deriving DecidableEq, Repr

/-- Options with a value. -/
inductive Setting where
  | marker
  | indent
deriving DecidableEq, Repr

/-- The commands. -/
inductive Verb where
  | check
  | operations
  | format
  | tokens
deriving DecidableEq, Repr

namespace Verb

/-- The command of a name. -/
def ofName? : String → Option Verb
  | "check" => some .check
  | "ops" => some .operations
  | "fmt" | "format" => some .format
  | "tokens" => some .tokens
  | _ => none

/-- The options without a value that a command knows, besides those that all know. -/
def flags : Verb → List (String × Flag)
  | check | tokens => []
  | operations => [("json", .json), ("no-imports", .noImports)]
  | format => [("write", .write), ("check", .check), ("tabs", .tabs)]

/-- The options with a value that a command knows. -/
def settings : Verb → List (String × Setting)
  | check | tokens => []
  | operations => [("marker", .marker)]
  | format => [("indent", .indent)]

/-- Whether a command takes any number of files. -/
def takesMany : Verb → Bool
  | tokens => false
  | _ => true

end Verb

/-- The options without a value that are known everywhere. -/
def commonFlags : List (String × Flag) := [("verbose", .verbose), ("quiet", .quiet)]

/-! ### What has been given -/

/-- The argument that is read but not looked at yet. -/
inductive Pending where
  | nothing
  /-- An option that waits for its value. -/
  | option (s : Setting)
  /-- An option with its value. -/
  | value (s : Setting) (text : String)
  /-- Files next to each other. -/
  | files (names : List String)
deriving DecidableEq, Repr

/-- What the arguments read so far say. -/
structure Given where
  /-- The options without a value. -/
  flags : List Flag := []
  /-- The marker of files without operations. -/
  marker : Option String := none
  /-- The number of spaces for a level. -/
  indent : Option Nat := none
  /-- The files. -/
  files : List String := []
  /-- What is not looked at yet. -/
  pending : Pending := .nothing
deriving DecidableEq, Repr

/-- A natural number of at most 64 bits in decimal digits, with or without a plus sign. -/
def number? (text : String) : Option Nat :=
  let digits := match text.toList with
    | '+' :: ds => ds
    | ds => ds
  if digits.isEmpty || !digits.all Char.isDigit then none
  else
    let n := Decimal.naturalOf digits
    if n ≤ 0xFFFFFFFFFFFFFFFF then some n else none

namespace Given

/-- Looks at what is pending. -/
def settle (g : Given) : Except UsageError Given :=
  match g.pending with
  | .nothing => .ok g
  | .option _ => .error .missingValue
  | .value .marker text =>
    if g.marker.isSome then .error .conflict
    else .ok { g with marker := some text, pending := .nothing }
  | .value .indent text =>
    if g.indent.isSome then .error .conflict
    else
      match number? text with
      | some n => .ok { g with indent := some n, pending := .nothing }
      | none => .error .invalidNumber
  | .files names =>
    if "" ∈ names then .error .missingValue
    else .ok { g with files := g.files ++ names, pending := .nothing }

/-- Notes an option without a value. -/
def raise (g : Given) (flag : Flag) : Except UsageError Given := do
  let g ← g.settle
  if flag ∈ g.flags then .error .conflict else return { g with flags := flag :: g.flags }

/-- Notes an option whose value is the next argument. -/
def await (g : Given) (s : Setting) : Except UsageError Given := do
  let g ← g.settle
  return { g with pending := .option s }

/-- Notes an option with its value. -/
def set (g : Given) (s : Setting) (text : String) : Except UsageError Given := do
  let g ← g.settle
  { g with pending := .value s text }.settle

/-- Notes a file. -/
def addFile (g : Given) (many : Bool) (name : String) : Except UsageError Given :=
  match g.pending with
  | .files names =>
    if many then .ok { g with pending := .files (names ++ [name]) } else .error .unknownArgument
  | _ =>
    if many || g.files.isEmpty then do
      let g ← g.settle
      return { g with pending := .files [name] }
    else .error .unknownArgument

/-- Ends the reading with a request, once what is pending has been looked at. -/
def interrupt (g : Given) (e : UsageError) : Except UsageError Given := do
  let _ ← g.settle
  .error e

end Given

/-! ### Options -/

/-- Splits a long option into its name and the value behind an equals sign. -/
def long? (arg : String) : Option (String × Option String) :=
  match arg.toList with
  | '-' :: '-' :: cs =>
    match cs.dropWhile (· ≠ '=') with
    | [] => some (String.ofList cs, none)
    | _ :: value => some (String.ofList (cs.takeWhile (· ≠ '=')), some (String.ofList value))
  | _ => none

/-- The letters of short options. -/
def shorts? (arg : String) : Option (List Char) :=
  match arg.toList with
  | '-' :: c :: cs => some (c :: cs)
  | _ => none

/-- Reads a short option. Only where no command is known yet can the version be asked for. -/
def readShort (versioned : Bool) (g : Given) (c : Char) : Except UsageError Given :=
  match c with
  | 'v' => g.raise .verbose
  | 'q' => g.raise .quiet
  | 'h' => g.interrupt .help
  | 'V' => if versioned then g.interrupt .version else .error .unknownArgument
  | _ => .error .unknownArgument

/-- Reads a long option, given the options that are known. -/
def readLong (versioned : Bool) (flags : List (String × Flag)) (settings : List (String × Setting))
    (g : Given) (name : String) (value : Option String) : Except UsageError Given :=
  if name = "help" ∨ (versioned ∧ name = "version") then
    if value.isSome then .error .needlessValue
    else g.interrupt (if name = "help" then .help else .version)
  else
    match flags.lookup name, settings.lookup name, value with
    | some _, _, some _ => .error .needlessValue
    | some flag, _, none => g.raise flag
    | none, some s, some text => g.set s text
    | none, some s, none => g.await s
    | none, none, _ => .error .unknownArgument

/-! ### Commands -/

/-- Reads the arguments behind a command. -/
def readArguments (verb : Verb) (g : Given) : List String → Except UsageError Given
  | [] => g.settle
  | "--" :: args => do
    let g ← args.foldlM (fun g name => g.addFile verb.takesMany name) g
    g.settle
  | arg :: args =>
    match long? arg, shorts? arg, g.pending with
    | some (name, value), _, _ => do
      let g ← readLong false (commonFlags ++ verb.flags) verb.settings g name value
      readArguments verb g args
    | none, some letters, _ => do
      let g ← letters.foldlM (readShort false) g
      readArguments verb g args
    | none, none, .option s => readArguments verb { g with pending := .value s arg } args
    | none, none, _ => do
      let g ← g.addFile verb.takesMany arg
      readArguments verb g args

/-- What `fmt` does with the printed document. -/
inductive FormatMode where
  /-- Write it out. -/
  | show
  /-- Store it in the file. -/
  | write
  /-- Compare it with the file. -/
  | check
deriving DecidableEq, Repr

/-- A command with all that it needs. -/
inductive Task where
  | check (files : List String)
  | operations (files : List String) (json : Bool) (options : ImportOptions)
  | format (files : List String) (mode : FormatMode) (style : Layout.Style)
  | tokens (file : String)
deriving DecidableEq, Repr

/-- A command line. -/
structure Invocation where
  /-- Whether every step is told. -/
  verbose : Bool
  /-- Whether only errors are told. -/
  quiet : Bool
  /-- What to do. -/
  task : Task
deriving DecidableEq, Repr

/-- The command that the arguments behind its name describe. -/
def task (verb : Verb) (g : Given) : Except UsageError Task :=
  if .write ∈ g.flags ∧ .check ∈ g.flags then .error .conflict
  else
    match g.files with
    | [] => .error .missingFile
    | file :: files =>
      match verb with
      | .check => .ok (.check (file :: files))
      | .operations =>
        .ok (.operations (file :: files) (.json ∈ g.flags)
          { marker := g.marker.getD "#typespec", expand := .noImports ∉ g.flags })
      | .format =>
        let mode := if .write ∈ g.flags then .write else if .check ∈ g.flags then .check else .show
        .ok (.format (file :: files) mode ⟨g.indent.getD 2, .tabs ∈ g.flags⟩)
      | .tokens => .ok (.tokens file)

/-- What is said of help: on a command, or on all of them. -/
def helpOn : List String → UsageError
  | [] => .help
  | [name] => if name = "help" ∨ (Verb.ofName? name).isSome then .help else .unknownCommand
  | _ => .unknownCommand

/-- Reads the arguments before a command, of which some may have been read. -/
def readCommand (g : Given) : List String → Except UsageError Invocation
  | [] => .error (if g.flags.isEmpty then .nothing else .missingCommand)
  | arg :: args =>
    if arg = "help" then .error (helpOn args)
    else
      match Verb.ofName? arg with
      | some verb => do
        let own ← readArguments verb {} args
        let task ← task verb own
        return ⟨.verbose ∈ g.flags ++ own.flags, .quiet ∈ g.flags ++ own.flags, task⟩
      | none =>
        match long? arg, shorts? arg with
        | some ("", none), _ =>
          match args with
          | [] => .error (if g.flags.isEmpty then .nothing else .missingCommand)
          | name :: _ =>
            if name = "help" ∨ (Verb.ofName? name).isSome then .error .unknownArgument
            else .error .unknownCommand
        | some (name, value), _ => do
          let g ← readLong true commonFlags [] g name value
          readCommand g args
        | none, some letters => do
          let g ← letters.foldlM (readShort true) g
          readCommand g args
        | none, none => .error .unknownCommand

/-- The command line that arguments denote. -/
def parse (args : List String) : Except UsageError Invocation := readCommand {} args

end QueryDocs.Command
