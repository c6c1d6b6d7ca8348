import QueryDocs.Span
import QueryDocs.Text.Utf8

/-! # Sources

A `Source` is the text of one document with the name it has in reports. Offsets into it are turned
into lines and columns by `Source.locate`; both count from one, a line ends after a line feed, and
columns count bytes. `Source.readPosition` finds them in the bytes of the text, in 32 bits. -/

namespace QueryDocs

open QueryDocs.Text

/-- A line and a column, both counted from one. -/
structure Position where
  /-- The number of the line. -/
  line : Nat
  /-- The number of the byte within the line. -/
  column : Nat
deriving DecidableEq, Repr

instance : ToString Position where
  toString p := s!"{p.line}:{p.column}"

/-- Positions are ordered by their lines, and within one line by their columns. -/
instance : LT Position where
  lt p q := p.line < q.line ∨ p.line = q.line ∧ p.column < q.column

instance (p q : Position) : Decidable (p < q) :=
  inferInstanceAs (Decidable (p.line < q.line ∨ p.line = q.line ∧ p.column < q.column))

/-- The place after `offset` further bytes, from a given place on. Offsets past the end of the
text count as its end. -/
def Position.after (p : Position) (offset : Nat) : List Char → Position
  | [] => p
  | c :: cs =>
    if offset < c.utf8Size then ⟨p.line, p.column + offset⟩
    else if c = '\n' then Position.after ⟨p.line + 1, 1⟩ (offset - c.utf8Size) cs
    else Position.after ⟨p.line, p.column + c.utf8Size⟩ (offset - c.utf8Size) cs

/-- The text of one document, with the name used for it in reports. -/
structure Source where
  /-- The text. -/
  body : String
  /-- The name, typically a path. -/
  name : Option String := none
deriving DecidableEq, Repr

namespace Source

/-- The characters of the text. -/
def chars (s : Source) : List Char := s.body.toList

/-- The bytes of the text in UTF-8. -/
def bytes (s : Source) : List UInt8 := s.body.toUTF8.data.toList

/-- The number of bytes of the text. -/
def size (s : Source) : Nat := byteLength s.chars

/-- The line and column of a byte offset. -/
def locate (s : Source) (offset : Nat) : Position := Position.after ⟨1, 1⟩ offset s.chars

/-! ### Positions from bytes -/

/-- The byte of a line feed. -/
def lineFeed : UInt8 := 10

/-- The offset behind the last line feed in some bytes, or the start if there is none. -/
def lineStart (bytes : List UInt8) : Nat :=
  match bytes.reverse.findIdx? (· == lineFeed) with
  | some behind => bytes.length - behind
  | none => 0

/-- A number as it is kept in 32 bits: one that does not fit becomes the greatest that does. -/
def saturated (n : Nat) : Nat := if n < UInt32.size then n else UInt32.size - 1

/-- The line and column of a byte offset, from two searches through the bytes before it: all line feeds
are counted, and the last one tells where the line starts. -/
def readPosition (s : Source) (offset : Nat) : Position :=
  let offset := min offset s.bytes.length
  let before := s.bytes.take offset
  ⟨saturated (before.count lineFeed + 1), saturated (offset - lineStart before + 1)⟩

/-! ### Slices and labels -/

/-- The text covered by a span, if both its ends are boundaries between characters. -/
def slice? (s : Source) (span : Span) : Option String :=
  if span.stop < span.start then none
  else
    match land span.start s.chars with
    | .boundary rest => (takeBytes? span.length rest).map String.ofList
    | _ => none

/-- The name to show in a report. -/
def label (s : Source) : String := s.name.getD "<input>"

end Source

end QueryDocs
