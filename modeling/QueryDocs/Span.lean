/-! # Byte spans

A `Span` is a half-open range of byte offsets into a text. Offsets count the bytes of the text's
UTF-8 encoding. Tokens and document nodes carry the span they were read from, and `start ≤ stop`
holds for all of those. -/

namespace QueryDocs

/-- The byte offsets from `start` up to, and without, `stop`. -/
structure Span where
  /-- The offset of the first byte. -/
  start : Nat
  /-- The offset just past the last byte. -/
  stop : Nat
deriving DecidableEq, Repr

namespace Span

/-- The empty span at an offset. -/
def empty (offset : Nat) : Span := ⟨offset, offset⟩

/-- The number of bytes covered. -/
def length (s : Span) : Nat := s.stop - s.start

/-- Whether no byte is covered. -/
def isEmpty (s : Span) : Bool := s.start == s.stop

/-- The least span that covers both spans. -/
def cover (s t : Span) : Span := ⟨min s.start t.start, max s.stop t.stop⟩

/-- Whether the byte at an offset is covered. -/
def contains (s : Span) (offset : Nat) : Bool := s.start ≤ offset && offset < s.stop

instance : ToString Span where
  toString s := s!"{s.start}..{s.stop}"

theorem contains_iff {s : Span} {n : Nat} : s.contains n = true ↔ s.start ≤ n ∧ n < s.stop := by
  simp [contains]

end Span

end QueryDocs
