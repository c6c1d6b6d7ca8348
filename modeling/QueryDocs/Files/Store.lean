/-! # Stores of files

A `FileStore` tells which file a path leads to, what a file holds and whether that can be replaced.
Many paths can lead to one file; the store knows it by one of them. There are finitely many files. -/

namespace QueryDocs

/-- Why a file cannot be read. -/
inductive FileFault where
  /-- Nothing is there. -/
  | notFound
  /-- A directory is there. -/
  | isDirectory
  /-- The path goes on behind something that is no directory. -/
  | notDirectory
  /-- The bytes are not the encoding of a text. -/
  | notText
deriving DecidableEq, Repr

/-- Where files are read from. -/
structure FileStore where
  /-- The path by which the file or directory that a path leads to is known. -/
  resolve : String → Except FileFault String
  /-- The text of the file that a path leads to. -/
  read : String → Except FileFault String
  /-- The paths by which files and directories are known. -/
  known : List String
  /-- Every path leads to one of these, or to nothing. -/
  mem_known : ∀ {path file : String}, resolve path = .ok file → file ∈ known
  /-- Whether the file that a path leads to can be given another text. -/
  writable : String → Bool := fun _ => true

namespace FileStore

/-- The store without files. -/
def empty : FileStore where
  resolve _ := .error .notFound
  read _ := .error .notFound
  known := []
  mem_known := by simp

/-- The store after the text of a file has been replaced. -/
def overwrite (store : FileStore) (path text : String) : FileStore :=
  match store.resolve path with
  | .error _ => store
  | .ok file =>
    { store with
      read := fun p =>
        match store.resolve p with
        | .ok f => if f = file then .ok text else store.read p
        | .error _ => store.read p }

/-- The number of known paths that are not in a list. -/
def remaining (store : FileStore) (seen : List String) : Nat :=
  (store.known.filter (· ∉ seen)).length

theorem remaining_lt {store : FileStore} {seen : List String} {file : String}
    (known : file ∈ store.known) (new : file ∉ seen) :
    store.remaining (file :: seen) < store.remaining seen := by
  have : (store.known.filter (· ∉ file :: seen))
      = (store.known.filter (· ∉ seen)).filter (· ≠ file) := by
    rw [List.filter_filter]
    congr 1
    funext f
    simp
  rw [remaining, this, remaining]
  refine List.length_filter_lt_length_iff_exists.2 ⟨file, ?_, by simp⟩
  simp [known, new]

end FileStore

/-! ### Snapshots

A `Snapshot` holds what has been found out about some paths. As a store it knows these and no
others. -/

/-- What is known about paths. -/
structure Snapshot where
  /-- What paths lead to. -/
  places : List (String × Except FileFault String) := []
  /-- What is read there. -/
  texts : List (String × Except FileFault String) := []

/-- What a table says of a path. -/
def Snapshot.found (table : List (String × Except FileFault String)) (path : String) :
    Except FileFault String :=
  (table.lookup path).getD (.error .notFound)

/-- The store of the paths in a snapshot. -/
def Snapshot.store (s : Snapshot) : FileStore where
  resolve := found s.places
  read := found s.texts
  known := s.places.filterMap fun p => p.2.toOption
  mem_known := by
    intro path file h
    rw [found] at h
    cases hl : s.places.lookup path with
    | none => rw [hl] at h; cases h
    | some e =>
      rw [hl] at h
      obtain ⟨a, b, hs, -⟩ := List.lookup_eq_some_iff.1 hl
      rw [List.mem_filterMap]
      exact ⟨(path, e), by simp [hs], by simp_all [Except.toOption]⟩

end QueryDocs
