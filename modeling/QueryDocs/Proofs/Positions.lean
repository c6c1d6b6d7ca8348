import Mathlib.Data.List.Count
import Mathlib.Data.List.Induction
import QueryDocs.Proofs.Tokens.Bytes

/-! # Positions and offsets

Reading a text byte by byte takes a position to the next one: a line feed leads to the start of the next
line, any other byte to the next column (`Position.step`). The position of an offset is where the bytes
before it lead to (`Source.locate_eq_foldl`). Each byte leads to a greater position, so offsets and
positions are in the same order; and the position tells the offset, as the number of its column counts the
bytes since the line feed before it (`Source.locate_offsets`). -/

namespace QueryDocs

open QueryDocs.Text
open Source (lineFeed lineStart saturated)

/-! ### Byte by byte -/

namespace Position

/-- The position behind a byte. -/
def step (p : Position) (b : UInt8) : Position :=
  if b = lineFeed then ⟨p.line + 1, 1⟩ else ⟨p.line, p.column + 1⟩

section Steps
variable {p q r : Position} {b : UInt8} {bs : List UInt8}

theorem step_lineFeed (p : Position) : p.step lineFeed = ⟨p.line + 1, 1⟩ := if_pos rfl

theorem step_of_ne (hb : b ≠ lineFeed) : p.step b = ⟨p.line, p.column + 1⟩ := if_neg hb

theorem lt_trans (h : p < q) (h' : q < r) : p < r := by
  rcases h with h | ⟨h, hc⟩ <;> rcases h' with h' | ⟨h', hc'⟩
  · exact Or.inl (h.trans h')
  · exact Or.inl (h'.symm ▸ h)
  · exact Or.inl (h.symm ▸ h')
  · exact Or.inr ⟨h.trans h', hc.trans hc'⟩

theorem lt_step (p : Position) (b : UInt8) : p < p.step b := by
  by_cases hb : b = lineFeed
  · rw [hb, step_lineFeed]
    exact Or.inl (Nat.lt_succ_self p.line)
  · rw [step_of_ne hb]
    exact Or.inr ⟨rfl, Nat.lt_succ_self p.column⟩

theorem lt_foldl (hne : bs ≠ []) : p < bs.foldl step p := by
  induction bs generalizing p with
  | nil => exact absurd rfl hne
  | cons b bs ih =>
    rw [List.foldl_cons]
    cases bs with
    | nil => exact lt_step p b
    | cons c cs => exact lt_trans (lt_step p b) (ih (List.cons_ne_nil c cs))

theorem line_foldl (bs : List UInt8) : (bs.foldl step p).line = p.line + bs.count lineFeed := by
  induction bs generalizing p with
  | nil => rfl
  | cons b bs ih =>
    rw [List.foldl_cons, ih]
    by_cases hb : b = lineFeed
    · rw [hb, step_lineFeed, List.count_cons_self]
      dsimp only
      omega
    · rw [step_of_ne hb, List.count_cons_of_ne hb]

theorem foldl_of_notMem (h : lineFeed ∉ bs) : bs.foldl step p = ⟨p.line, p.column + bs.length⟩ := by
  induction bs generalizing p with
  | nil => rfl
  | cons b bs ih =>
    obtain ⟨hb, hbs⟩ := not_or.mp (mt List.mem_cons.mpr h)
    rw [List.foldl_cons, step_of_ne (Ne.symm hb), ih hbs, List.length_cons, Nat.add_right_comm,
      Nat.add_assoc]

end Steps

end Position

/-! ### Line starts -/

section LineStarts
variable {b : UInt8} {bs : List UInt8}

theorem lineStart_append_lineFeed : lineStart (bs ++ [lineFeed]) = bs.length + 1 := by
  simp [lineStart, List.findIdx?_cons]

theorem lineStart_append (hb : b ≠ lineFeed) : lineStart (bs ++ [b]) = lineStart bs := by
  simp only [lineStart, List.reverse_append, List.reverse_cons, List.reverse_nil, List.nil_append,
    List.singleton_append, List.findIdx?_cons, beq_eq_false_iff_ne.mpr hb, Bool.false_eq_true, if_false]
  cases List.findIdx? (· == lineFeed) bs.reverse with
  | none => rfl
  | some behind => simp

theorem lineStart_le (bs : List UInt8) : lineStart bs ≤ bs.length := by
  unfold lineStart
  split <;> omega

theorem lineStart_add_column (bs : List UInt8) :
    lineStart bs + (bs.foldl Position.step ⟨1, 1⟩).column = bs.length + 1 := by
  induction bs using List.reverseRecOn with
  | nil => rfl
  | append_singleton bs b ih =>
    rw [List.foldl_append, List.foldl_cons, List.foldl_nil, List.length_append, List.length_singleton]
    by_cases hb : b = lineFeed
    · rw [hb, Position.step_lineFeed, lineStart_append_lineFeed]
    · rw [Position.step_of_ne hb, lineStart_append hb, ← ih, Nat.add_assoc]

/-- The offsets that lines start at: that of the text, and the one behind each line feed. -/
def Source.lineStarts (s : Source) : List Nat := 0 :: (s.bytes.idxsOf lineFeed).map (· + 1)

theorem getElem?_lineStarts (bs cs : List UInt8) :
    (0 :: ((bs ++ cs).idxsOf lineFeed).map (· + 1))[bs.count lineFeed]? = some (lineStart bs) := by
  induction bs using List.reverseRecOn generalizing cs with
  | nil => rfl
  | append_singleton bs b ih =>
    by_cases hb : b = lineFeed
    · subst hb
      have hcount : (bs ++ [lineFeed]).count lineFeed = bs.count lineFeed + 1 := by simp
      rw [hcount, List.getElem?_cons_succ, lineStart_append_lineFeed, List.append_assoc,
        List.singleton_append, List.idxsOf_append, List.map_append,
        List.getElem?_append_right (by simp), List.idxsOf_cons]
      simp
    · have hcount : (bs ++ [b]).count lineFeed = bs.count lineFeed := by simp [hb]
      rw [hcount, lineStart_append hb, List.append_assoc]
      exact ih ([b] ++ cs)

end LineStarts

/-! ### Texts -/

theorem lineFeed_notMem_encode {c : Char} (hc : c ≠ '\n') : lineFeed ∉ encode [c] := by
  intro h
  have hview : Lexer.latin lineFeed ∈ view [c] := List.mem_map_of_mem h
  rcases mem_view hview with hmem | hhigh
  · exact hc (List.mem_singleton.mp hmem).symm
  · exact absurd hhigh (by decide)

theorem Position.after_eq_foldl (p : Position) (n : Nat) (cs : List Char) :
    p.after n cs = ((encode cs).take n).foldl Position.step p := by
  induction cs generalizing p n with
  | nil => simp [Position.after, encode]
  | cons c cs ih =>
    have hsplit : encode (c :: cs) = encode [c] ++ encode cs := encode_append [c] cs
    have hone : (encode [c]).length = c.utf8Size := by simp
    rw [hsplit, List.take_append, List.foldl_append, hone, Position.after]
    by_cases hn : n < c.utf8Size
    · have hnone : lineFeed ∉ (encode [c]).take n := by
        intro h
        by_cases hc : c = '\n'
        · obtain rfl : n = 0 := by
            have hsize : c.utf8Size = 1 := by rw [hc]; rfl
            omega
          cases h
        · exact lineFeed_notMem_encode hc (List.mem_of_mem_take h)
      have hlen : ((encode [c]).take n).length = n := by rw [List.length_take]; omega
      have hrest : n - c.utf8Size = 0 := by omega
      rw [if_pos hn, hrest, List.take_zero, List.foldl_nil, foldl_of_notMem hnone, hlen]
    · have hall : (encode [c]).take n = encode [c] := List.take_of_length_le (by omega)
      rw [if_neg hn, hall]
      by_cases hc : c = '\n'
      · rw [if_pos hc, ih, hc]
        rfl
      · rw [if_neg hc, ih, foldl_of_notMem (lineFeed_notMem_encode hc), hone]

namespace Source

variable {s : Source} {a b : Nat}

theorem locate_eq_foldl (s : Source) (a : Nat) :
    s.locate a = (s.bytes.take a).foldl Position.step ⟨1, 1⟩ := by
  rw [locate, Position.after_eq_foldl, s.bytes_eq]

theorem line_locate (s : Source) (a : Nat) :
    (s.locate a).line = (s.bytes.take a).count lineFeed + 1 := by
  rw [locate_eq_foldl, Position.line_foldl, Nat.add_comm]

theorem lineStart_add_column_locate (h : a ≤ s.size) :
    lineStart (s.bytes.take a) + (s.locate a).column = a + 1 := by
  rw [locate_eq_foldl, lineStart_add_column, List.length_take, s.length_bytes]
  omega

theorem lineStart_take_le (s : Source) (a : Nat) : lineStart (s.bytes.take a) ≤ a :=
  (lineStart_le _).trans (List.length_take_le a s.bytes)

theorem locate_of_size_le (h : s.size ≤ b) : s.locate b = s.locate s.size := by
  rw [locate_eq_foldl, locate_eq_foldl, ← s.length_bytes, List.take_length,
    List.take_of_length_le (by rwa [s.length_bytes])]

theorem locate_lt (h : a < b) (hb : b ≤ s.size) : s.locate a < s.locate b := by
  have hlen := s.length_bytes
  have hsplit : s.bytes.take b = s.bytes.take a ++ (s.bytes.take b).drop a := by
    conv_lhs => rw [← List.take_append_drop a (s.bytes.take b), List.take_take, min_eq_left h.le]
  have hne : (s.bytes.take b).drop a ≠ [] := by
    rw [← List.length_pos_iff, List.length_drop, List.length_take]
    omega
  rw [locate_eq_foldl s b, hsplit, List.foldl_append, ← locate_eq_foldl]
  exact Position.lt_foldl hne

theorem lineStarts_locate (s : Source) (a : Nat) :
    s.lineStarts[(s.locate a).line - 1]? = some (lineStart (s.bytes.take a)) := by
  have hbytes := getElem?_lineStarts (s.bytes.take a) (s.bytes.drop a)
  rwa [List.take_append_drop, ← Nat.add_sub_cancel (List.count lineFeed _) 1, ← line_locate] at hbytes

theorem locate_append (h : a ≤ s.size) (t : String) (name : Option String) :
    locate ⟨s.body ++ t, name⟩ a = s.locate a := by
  have hbytes : bytes ⟨s.body ++ t, name⟩ = s.bytes ++ encode t.toList := by
    rw [bytes_eq, bytes_eq, ← encode_append, chars, chars, String.toList_append]
  rw [locate_eq_foldl, locate_eq_foldl, hbytes,
    List.take_append_of_le_length (by rwa [s.length_bytes])]

/-! ### Positions in 32 bits -/

theorem saturated_of_lt {n : Nat} (h : n < UInt32.size) : saturated n = n := if_pos h

theorem readPosition_of_lt (h : a ≤ s.size) (ha : a < UInt32.size - 1) :
    s.readPosition a = s.locate a := by
  have hstart := lineStart_take_le s a
  have hcolumn := lineStart_add_column_locate h
  have hcount : (s.bytes.take a).count lineFeed ≤ a :=
    List.count_le_length.trans (List.length_take_le a s.bytes)
  have hmin : min a s.bytes.length = a := min_eq_left (by rwa [s.length_bytes])
  have hline : saturated ((s.bytes.take a).count lineFeed + 1) = (s.locate a).line := by
    rw [line_locate, saturated_of_lt (by omega)]
  have hcolumn' : saturated (a - lineStart (s.bytes.take a) + 1) = (s.locate a).column := by
    rw [saturated_of_lt (by omega)]
    omega
  simp only [readPosition, hmin, hline, hcolumn']

theorem readPosition_of_size_le (h : s.size ≤ b) : s.readPosition b = s.readPosition s.size := by
  simp only [readPosition, s.length_bytes, min_eq_right h, min_self]

/-- **Positions and offsets correspond.** Greater offsets have greater positions. The line of a position
counts the line feeds before the offset, and the offset is as far behind the start of this line as the
column says. Offsets past the end have the position of the end, and text that is put behind changes nothing.
All this holds of the positions that are found in the bytes, for these are the same. -/
theorem locate_offsets (s : Source) (hsize : s.size < UInt32.size - 1) :
    (∀ a, s.readPosition a = s.locate a) ∧
    (∀ a b, a < b → b ≤ s.size → s.locate a < s.locate b) ∧
    (∀ a, a ≤ s.size →
      (s.locate a).line = (s.bytes.take a).count lineFeed + 1 ∧
      (∃ start, s.lineStarts[(s.locate a).line - 1]? = some start ∧ 1 ≤ (s.locate a).column ∧
        a = start + ((s.locate a).column - 1)) ∧
      ∀ t name, locate ⟨s.body ++ t, name⟩ a = s.locate a ∧
        readPosition ⟨s.body ++ t, name⟩ a = s.locate a) ∧
    ∀ b, s.size < b → s.locate b = s.locate s.size := by
  have hread : ∀ a, s.readPosition a = s.locate a := by
    intro a
    rcases Nat.le_total a s.size with ha | ha
    · exact readPosition_of_lt ha (by omega)
    · rw [readPosition_of_size_le ha, locate_of_size_le ha]
      exact readPosition_of_lt le_rfl hsize
  refine ⟨hread, fun a b => locate_lt, fun a ha => ⟨line_locate s a, ?_, fun t name => ?_⟩,
    fun b hb => locate_of_size_le hb.le⟩
  · have hstart := lineStart_take_le s a
    have hcolumn := lineStart_add_column_locate ha
    exact ⟨_, lineStarts_locate s a, by omega, by omega⟩
  · have hlonger : a ≤ size ⟨s.body ++ t, name⟩ := by
      have hchars : chars ⟨s.body ++ t, name⟩ = s.chars ++ t.toList := String.toList_append
      rw [size, hchars, byteLength_append]
      exact ha.trans (Nat.le_add_right _ _)
    have hsame := locate_append ha t name
    exact ⟨hsame, (readPosition_of_lt hlonger (by omega)).trans hsame⟩

/-- An offset within a character, and the next line feed, which ends an empty line. -/
theorem locate_offsets_blankLine :
    let s : Source := ⟨"é\n\nb", none⟩
    s.size < UInt32.size - 1 ∧ s.locate 1 = ⟨1, 2⟩ ∧ s.locate 3 = ⟨2, 1⟩ ∧ s.locate 1 < s.locate 3 ∧
      s.readPosition 3 = ⟨2, 1⟩ ∧ s.lineStarts = [0, 3, 4] ∧ s.locate 99 = ⟨3, 2⟩ := by
  intro s
  have hsize : s.size < UInt32.size - 1 := by decide
  obtain ⟨hread, hlt, -, hend⟩ := locate_offsets s hsize
  refine ⟨hsize, by decide, by decide, hlt 1 3 (by decide) (by decide), ?_, by decide +kernel, ?_⟩
  · exact (hread 3).trans (by decide)
  · exact (hend 99 (by decide)).trans (by decide)

end Source

end QueryDocs
