import QueryDocs.Text.CharClass

/-! # Import lines

A text falls into lines, each of which ends with its line feed; only the last one may lack it. A line of
a file can ask for another file to be put in its place: behind blanks stands the word `#import`, a space,
and a path in double quotes. To a reader of documents such a line is a comment. -/

namespace QueryDocs

/-! ### Lines -/

namespace Text

/-- The lines of a text, with their line feeds. -/
def lines : List Char → List (List Char)
  | [] => []
  | c :: cs =>
    if c = '\n' then [c] :: lines cs
    else
      match lines cs with
      | [] => [[c]]
      | line :: rest => (c :: line) :: rest

/-- No character is lost. -/
theorem flatten_lines (cs : List Char) : (lines cs).flatten = cs := by
  induction cs with
  | nil => rfl
  | cons c cs ih =>
    rw [lines]
    split
    · simp [ih]
    · split <;> rename_i h <;> rw [h] at ih <;> simp [← ih]

theorem ne_nil_of_mem_lines {cs line : List Char} (h : line ∈ lines cs) : line ≠ [] := by
  induction cs generalizing line with
  | nil => simp [lines] at h
  | cons c cs ih =>
    rw [lines] at h
    split at h
    · rcases List.mem_cons.1 h with rfl | h
      · simp
      · exact ih h
    · split at h
      · simp_all
      · rename_i first rest hl
        rcases List.mem_cons.1 h with rfl | h
        · simp
        · exact ih (hl ▸ List.mem_cons_of_mem _ h)

example : lines "a\n\nb".toList = ["a\n".toList, "\n".toList, "b".toList] := by decide

end Text

/-! ### Lines that ask for files -/

open QueryDocs.Text

/-- A line that asks for a file. -/
structure ImportLine where
  /-- The path of the file, as seen from the directory of the file with the line. -/
  target : String
  /-- The rest of the line behind the closing quote. -/
  rest : List Char
deriving DecidableEq, Repr

namespace ImportLine

/-- How the part of an import line before the path starts. -/
def opening : String := "#import \""

/-- Whether a character can stand in the path of an import line. -/
def isPathChar (c : Char) : Bool :=
  isAlphanumeric c || c == '_' || c == '/' || c == '.' || c == '-'

/-- Reads a line as an import line. -/
def read? (line : List Char) : Option ImportLine := do
  let cs ← opening.toList.isPrefixOf? (line.dropWhile isBlank)
  let path := cs.takeWhile (· ≠ '"')
  match cs.dropWhile (· ≠ '"') with
  | [] => none
  | _ :: rest =>
    if path ≠ [] ∧ path.all isPathChar then some ⟨String.ofList path, rest⟩ else none

/-- What takes the place of an import line, given the text that was asked for. The rest of the line
stays; where it is blank only the line end stays, and that only if the text does not end with
one. -/
def replace (line : ImportLine) (text : List Char) : List Char :=
  if line.rest.all isBlank then
    if line.rest.getLast? = some '\n' ∧ text.getLast? ≠ some '\n' then text ++ ['\n'] else text
  else text ++ line.rest

end ImportLine

end QueryDocs
