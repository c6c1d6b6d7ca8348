/-! # Paths

Paths are texts in which slashes stand between names. They are put together and taken apart as
texts, without a look at any file. -/

namespace QueryDocs.Path

/-- A path as seen from a directory; a path that starts with a slash stays as it is. -/
def join (directory path : String) : String :=
  if path.toList.head? = some '/' then path
  else
    match directory.toList.getLast? with
    | none | some '/' => directory ++ path
    | some _ => directory ++ "/" ++ path

/-- The directory that a path without a trailing slash lies in. -/
def parent (path : String) : String :=
  match path.toList.reverse.dropWhile (· ≠ '/') with
  | [] => ""
  | ['/'] => if path = "/" then "" else "/"
  | _ :: cs => String.ofList cs.reverse

/-- The name behind the last slash. -/
def fileName (path : String) : String :=
  String.ofList (path.toList.reverse.takeWhile (· ≠ '/')).reverse

/-- The name of a file without its last extension. A dot at the start of a name starts no
extension, and the names `.` and `..` name no file. -/
def stem (path : String) : String :=
  let name := fileName path
  if name = "." ∨ name = ".." then ""
  else
    match name.toList.reverse.dropWhile (· ≠ '.') with
    | [] | ['.'] => name
    | _ :: cs => String.ofList cs.reverse

/-- The parts of a text between slashes. -/
def splitSlashes : List Char → List (List Char)
  | [] => [[]]
  | c :: cs =>
    if c = '/' then [] :: splitSlashes cs
    else
      match splitSlashes cs with
      | [] => [[c]]
      | part :: rest => (c :: part) :: rest

/-- The names in a path; a trailing slash and neighbouring slashes have empty names at them. -/
def parts (path : String) : List String := (splitSlashes path.toList).map String.ofList

/-- The path from the root along names. -/
def ofNames (names : List String) : String := "/" ++ "/".intercalate names

example : join "/a" "b" = "/a/b" := by decide
example : join "/a" "/b" = "/b" := by decide
example : join "/" "b" = "/b" := by decide
example : parent "/a/b" = "/a" := by decide
example : parent "/a" = "/" := by decide
example : stem "a/b.c.d" = "b.c" := by decide
example : stem ".a" = ".a" := by decide
example : stem "a..b" = "a." := by decide

end QueryDocs.Path
