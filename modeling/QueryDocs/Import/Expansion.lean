import QueryDocs.Files.Path
import QueryDocs.Files.Store
import QueryDocs.Import.Line

/-! # Expansion of import lines

The text of a file with each import line replaced by the expanded text of the file that it asks for.
The files being expanded form a chain, each asked for by the one before; a file that is asked for
again on its own chain is refused. As the files of a store are finitely many, chains are short and
the expansion comes to an end. -/

namespace QueryDocs

open QueryDocs.Text

/-- Why a file cannot be expanded. -/
inductive ExpansionError where
  /-- A file cannot be read. -/
  | unreadable (path : String) (fault : FileFault)
  /-- A file asks for a file that is being expanded. -/
  | cycle (path : String)
deriving DecidableEq, Repr

/-- The wording for an error. -/
def ExpansionError.message : ExpansionError → String
  | .unreadable path _ => "failed to read " ++ path
  | .cycle path => "import cycle through " ++ path

namespace FileStore

/-- The expanded text of the file that a path leads to, where the files of a chain are being
expanded. -/
def expandOn (store : FileStore) (chain : List String) (path : String) :
    Except ExpansionError (List Char) :=
  match _ : store.resolve path with
  | .error fault => .error (.unreadable path fault)
  | .ok file =>
    if _ : file ∈ chain then .error (.cycle path)
    else
      match store.read file with
      | .error fault => .error (.unreadable file fault)
      | .ok text => do
        let texts ← (lines text.toList).mapM fun line =>
          match ImportLine.read? line with
          | none => pure line
          | some asked => do
            let target := Path.join (Path.parent file) asked.target
            let imported ← store.expandOn (file :: chain) target
            return asked.replace imported
        return texts.flatten
termination_by store.remaining chain
decreasing_by
  exact remaining_lt (store.mem_known ‹store.resolve path = .ok file›) ‹file ∉ chain›

/-- The expanded text of the file that a path leads to. -/
def expand (store : FileStore) (path : String) : Except ExpansionError String :=
  (store.expandOn [] path).map String.ofList

end FileStore

end QueryDocs
