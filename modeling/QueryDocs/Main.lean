import QueryDocs.Command.Run
import QueryDocs.Files.Path
import QueryDocs.Files.Store

/-! # The program

Reads the files that a command line names, and the files that these ask for, into a snapshot, and finds
out which of those that are to be formatted cannot be written; runs the command on it; then writes the
outputs and the changed files. -/

namespace QueryDocs.Main

open QueryDocs.Command

/-- The fault behind an error of the system. -/
def faultOf : IO.Error → FileFault
  | .noFileOrDirectory .. => .notFound
  | .inappropriateType .. => .notDirectory
  | _ => .isDirectory

/-- The text behind a path. -/
def readText (path : String) : IO (Except FileFault String) := do
  try
    let bytes ← IO.FS.readBinFile path
    match String.fromUTF8? bytes with
    | some text => return .ok text
    | none => return .error .notText
  catch e => return .error (faultOf e)

/-- The path by which the system knows the file behind a path. -/
def realPath (path : String) : IO (Except FileFault String) := do
  if path.isEmpty then return .error .notFound
  try return .ok (← IO.FS.realPath path).toString
  catch e => return .error (faultOf e)

/-- Reads the files behind paths, and the files that their import lines ask for. -/
partial def gather (s : Snapshot) : List String → IO Snapshot
  | [] => return s
  | path :: paths => do
    if (s.places.lookup path).isSome then gather s paths
    else
      let place ← realPath path
      let text ← readText path
      let s := { s with places := (path, place) :: s.places, texts := (path, text) :: s.texts }
      match place, text with
      | .ok file, .ok text =>
        let asked := (Text.lines text.toList).filterMap fun line =>
          (ImportLine.read? line).map fun i => Path.join (Path.parent file) i.target
        gather s (file :: asked ++ paths)
      | .ok file, .error _ => gather s (if file = path then paths else file :: paths)
      | .error _, _ => gather s paths

/-- Whether no other text can be put behind a path. -/
def isFixed (path : String) : IO Bool := do
  try
    let _ ← IO.FS.Handle.mk path .readWrite
    return false
  catch _ => return true

/-- The files that a task names. -/
def filesOf : Task → List String
  | .check files | .operations files _ _ | .format files _ _ => files
  | .tokens file => [file]

/-- The files that a task may write. -/
def outputsOf : Task → List String
  | .format files .write _ => files
  | _ => []

/-- How the program is called. -/
def usage : String :=
  "Usage: sgql [-v|--verbose] [-q|--quiet] <COMMAND>\n\n"
    ++ "  check <FILES>...\n"
    ++ "  ops [--json] [--marker <MARKER>] [--no-imports] <FILES>...\n"
    ++ "  fmt [--write|--check] [--indent <INDENT>] [--tabs] <FILES>...\n"
    ++ "  tokens <FILE>\n"

/-- The wording for a command line that is not obeyed. -/
def complaint : UsageError → String
  | .nothing | .missingCommand => "a command is required"
  | .help | .version => ""
  | .unknownCommand => "unrecognized command"
  | .unknownArgument => "unexpected argument"
  | .missingFile => "a file is required"
  | .conflict => "an argument cannot be used with another or more than once"
  | .missingValue => "an argument needs a value"
  | .needlessValue => "an argument takes no value"
  | .invalidNumber => "invalid number"

end QueryDocs.Main

section

open QueryDocs QueryDocs.Command QueryDocs.Main

/-- Runs a command line. -/
def main (args : List String) : IO UInt32 := do
  let stdout ← IO.getStdout
  let stderr ← IO.getStderr
  match parse args with
  | .error .help =>
    stdout.putStr usage
    return 0
  | .error .version =>
    stdout.putStr "sgql 0.1.0\n"
    return 0
  | .error e =>
    stderr.putStr ("error: " ++ complaint e ++ "\n\n" ++ usage)
    return 2
  | .ok invocation =>
    let snapshot ← gather {} (filesOf invocation.task)
    let fixed ← (outputsOf invocation.task).filterM isFixed
    let (result, session) := invocation.run { snapshot.store with writable := (· ∉ fixed) }
    stdout.putStr session.stdout
    stderr.putStr session.stderr
    for (path, text) in session.written do
      try IO.FS.writeFile path text
      -- the file has changed since it was looked at
      catch _ =>
        stderr.putStr ("report: " ++ (Breakdown.unwritable path).message ++ "\n")
        return 1
    match result with
    | .ok code => return code.toUInt32
    | .error e =>
      stderr.putStr ("report: " ++ e.message ++ "\n")
      return 1

end
