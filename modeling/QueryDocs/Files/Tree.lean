import QueryDocs.Files.Path
import QueryDocs.Files.Store

/-! # Trees of files

A `FileTree` holds directories and files by the names that lead to them from the root. A path is
followed name by name, from the root or from the working directory; each name but the last has to
lead to a directory. -/

namespace QueryDocs

/-- What is found at a place in a tree. -/
inductive FileEntry where
  | directory
  /-- A file with a text. -/
  | text (contents : String)
  /-- A file whose bytes are not the encoding of a text. -/
  | bytes
deriving DecidableEq, Repr

/-- Directories and files by name. -/
structure FileTree where
  /-- The names that lead to the working directory. -/
  workingDirectory : List String
  /-- What is found behind names, save at the root. -/
  entries : List (List String × FileEntry)

namespace FileTree

/-- What is found behind names; at the root is a directory. -/
def find? (t : FileTree) (names : List String) : Option FileEntry :=
  if names = [] then some .directory else t.entries.lookup names

/-- Follows further names from a place. -/
def follow (t : FileTree) : List String → List String → Except FileFault (List String)
  | here, [] => if (t.find? here).isSome then .ok here else .error .notFound
  | here, name :: names =>
    match t.find? here with
    | none => .error .notFound
    | some .directory =>
      if name = "" ∨ name = "." then t.follow here names
      else if name = ".." then t.follow here.dropLast names
      else if (t.find? (here ++ [name])).isSome then t.follow (here ++ [name]) names
      else .error .notFound
    | some _ => .error .notDirectory

/-- The place that a path leads to. -/
def locate (t : FileTree) (path : String) : Except FileFault (List String) :=
  if path = "" then .error .notFound
  else t.follow (if path.toList.head? = some '/' then [] else t.workingDirectory) (Path.parts path)

/-- The text of the file that a path leads to. -/
def read (t : FileTree) (path : String) : Except FileFault String := do
  match t.find? (← t.locate path) with
  | some (.text contents) => .ok contents
  | some .directory => .error .isDirectory
  | some .bytes => .error .notText
  | none => .error .notFound

/-- The places at which there is something. -/
def places (t : FileTree) : List (List String) := [] :: t.entries.map (·.1)

theorem mem_places {t : FileTree} {names : List String} (h : (t.find? names).isSome) :
    names ∈ t.places := by
  rw [find?] at h
  split at h
  · simp [places, *]
  · obtain ⟨e, he⟩ := Option.isSome_iff_exists.1 h
    obtain ⟨a, b, hs, -⟩ := List.lookup_eq_some_iff.1 he
    simp [places, hs]

theorem mem_places_of_follow {t : FileTree} {here names place : List String}
    (h : t.follow here names = .ok place) : place ∈ t.places := by
  fun_induction follow t here names <;> simp_all [mem_places]

/-- The store of the files of a tree. -/
def store (t : FileTree) : FileStore where
  resolve path := (t.locate path).map Path.ofNames
  read := t.read
  known := t.places.map Path.ofNames
  mem_known := by
    intro path file h
    rw [locate] at h
    split at h
    · cases h
    · split at h <;> cases hf : t.follow _ (Path.parts path) with
        | error _ => rw [hf] at h; cases h
        | ok place =>
          rw [hf] at h
          cases h
          exact List.mem_map_of_mem (mem_places_of_follow hf)

/-- A tree with something put at a place, and with the directories on the way there. -/
def insert (t : FileTree) (names : List String) (entry : FileEntry) : FileTree :=
  let directories := (List.range names.length).filterMap fun n =>
    if (t.find? (names.take n)).isSome then none else some (names.take n, FileEntry.directory)
  { t with entries := (names, entry) :: directories ++ t.entries }

end FileTree

end QueryDocs
