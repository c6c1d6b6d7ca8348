/-! # Byte offsets in a text

A text is a list of characters; its offsets count the bytes of its UTF-8 encoding. `land` says
where an offset falls: between two characters, inside one, or beyond the end. -/

namespace QueryDocs.Text

/-- The number of bytes of a text. -/
def byteLength : List Char → Nat
  | [] => 0
  | c :: cs => c.utf8Size + byteLength cs

/-- Where a byte offset falls in a text. -/
inductive Landing where
  /-- On a boundary between characters, with the text after it. -/
  | boundary (rest : List Char)
  /-- After the first and before the last byte of a character. -/
  | inside
  /-- Past the end of the text. -/
  | beyond

/-- Follows a text for a number of bytes. -/
def land (offset : Nat) : List Char → Landing
  | [] => if offset = 0 then .boundary [] else .beyond
  | c :: cs =>
    if offset = 0 then .boundary (c :: cs)
    else if c.utf8Size ≤ offset then land (offset - c.utf8Size) cs
    else .inside

/-- The first `size` bytes of a text, if they end on a boundary between characters. -/
def takeBytes? (size : Nat) : List Char → Option (List Char)
  | [] => if size = 0 then some [] else none
  | c :: cs =>
    if size = 0 then some []
    else if c.utf8Size ≤ size then (takeBytes? (size - c.utf8Size) cs).map (c :: ·)
    else none

@[simp] theorem byteLength_nil : byteLength [] = 0 := rfl

@[simp] theorem byteLength_cons (c : Char) (cs : List Char) :
    byteLength (c :: cs) = c.utf8Size + byteLength cs := rfl

@[simp] theorem byteLength_append (as bs : List Char) :
    byteLength (as ++ bs) = byteLength as + byteLength bs := by
  induction as with
  | nil => simp
  | cons a as ih => simp [ih, Nat.add_assoc]

/-- Following a text for the length of its first part leads to its second part. -/
theorem land_append (as bs : List Char) : land (byteLength as) (as ++ bs) = .boundary bs := by
  induction as with
  | nil => cases bs <;> simp [land]
  | cons a as ih =>
    have := a.utf8Size_pos
    rw [List.cons_append, land, if_neg (by simp; omega), if_pos (by simp)]
    simpa using ih

theorem takeBytes?_append (as bs : List Char) :
    takeBytes? (byteLength as) (as ++ bs) = some as := by
  induction as with
  | nil => cases bs <;> simp [takeBytes?]
  | cons a as ih =>
    have := a.utf8Size_pos
    rw [List.cons_append, takeBytes?, if_neg (by simp; omega), if_pos (by simp)]
    simp [ih]

end QueryDocs.Text
