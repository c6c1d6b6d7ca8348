import QueryDocs.Proofs.Tokens.Boundary
import QueryDocs.Token.Lexer

/-! # The bytes of a text

A character up to number 127 is one byte, its number; all bytes of the others are above. So such a byte
shows where a character stands (`Source.textFrom_of_byte`), and the bytes of a text start with given
characters of this kind iff the text does (`view_startsWith`). -/

namespace QueryDocs

open QueryDocs.Text
open Lexer (latin)

/-- The bytes of a text. -/
def encode (cs : List Char) : List UInt8 := cs.flatMap String.utf8EncodeChar

/-- The bytes of a text, each as the character with its number. -/
def view (cs : List Char) : List Char := (encode cs).map latin

section Bytes
variable {b : UInt8} {c d : Char} {cs ds as : List Char} {n : Nat}

theorem toNat_latin (b : UInt8) : (latin b).toNat = b.toNat := by
  have hb := b.toNat_lt
  have hvalid : b.toNat.isValidChar := Or.inl (by omega)
  rw [latin, Char.ofNat, dif_pos hvalid]
  rfl

@[simp] theorem encode_append (cs ds : List Char) : encode (cs ++ ds) = encode cs ++ encode ds :=
  List.flatMap_append

@[simp] theorem view_append (cs ds : List Char) : view (cs ++ ds) = view cs ++ view ds := by
  simp [view]

theorem view_cons (c : Char) (cs : List Char) : view (c :: cs) = view [c] ++ view cs :=
  view_append [c] cs

@[simp] theorem length_encode (cs : List Char) : (encode cs).length = byteLength cs := by
  induction cs with
  | nil => rfl
  | cons c cs ih =>
    have hsplit := encode_append [c] cs
    rw [List.singleton_append] at hsplit
    rw [hsplit, List.length_append, ih, byteLength_cons]
    simp [encode]

@[simp] theorem length_view (cs : List Char) : (view cs).length = byteLength cs := by simp [view]

/-- A character up to number 127 is the byte with its number. -/
theorem view_ascii (h : c.toNat ≤ 127) : view [c] = [c] := by
  have hsize := utf8Size_eq_one h
  have hlatin : latin c.val.toUInt8 = c := by
    have hnat : c.val.toUInt8.toNat = c.toNat := by
      have hmod : c.val.toNat = c.toNat := rfl
      rw [UInt32.toNat_toUInt8, hmod]
      omega
    rw [latin, hnat, Char.ofNat_toNat]
  simp only [view, encode, List.flatMap_cons, List.flatMap_nil, List.append_nil,
    String.utf8EncodeChar_eq_singleton hsize, List.map_cons, List.map_nil, hlatin]

theorem view_of_ascii (h : ∀ c ∈ cs, c.toNat ≤ 127) : view cs = cs := by
  induction cs with
  | nil => rfl
  | cons c cs ih =>
    obtain ⟨hc, hcs⟩ := List.forall_mem_cons.mp h
    rw [view_cons, view_ascii hc, ih hcs, List.singleton_append]

/-- The bytes of all other characters are above. -/
theorem high_of_mem_encode (h : 127 < c.toNat) (hb : b ∈ String.utf8EncodeChar c) : 127 < b.toNat := by
  have hor : ∀ x y : UInt8, 127 < y.toNat → 127 < (x ||| y).toNat := fun x y hy => by
    rw [UInt8.toNat_or]
    exact hy.trans_le Nat.right_le_or
  have hone : c.utf8Size ≠ 1 := fun h' => by
    have : c.val.toNat ≤ 127 := by simpa [UInt32.le_iff_toNat_le] using Char.utf8Size_eq_one_iff.mp h'
    have hval : c.val.toNat = c.toNat := rfl
    omega
  have hpos := c.utf8Size_pos
  have hfour := c.utf8Size_le_four
  obtain h2 | h3 | h4 : c.utf8Size = 2 ∨ c.utf8Size = 3 ∨ c.utf8Size = 4 := by omega
  · rw [String.utf8EncodeChar_eq_cons_cons h2] at hb
    simp only [List.mem_cons, List.not_mem_nil, or_false] at hb
    rcases hb with rfl | rfl <;> exact hor _ _ (by decide)
  · rw [String.utf8EncodeChar_eq_cons_cons_cons h3] at hb
    simp only [List.mem_cons, List.not_mem_nil, or_false] at hb
    rcases hb with rfl | rfl | rfl <;> exact hor _ _ (by decide)
  · rw [String.utf8EncodeChar_eq_cons_cons_cons_cons h4] at hb
    simp only [List.mem_cons, List.not_mem_nil, or_false] at hb
    rcases hb with rfl | rfl | rfl | rfl <;> exact hor _ _ (by decide)

theorem high_of_mem_view (h : 127 < c.toNat) (hd : d ∈ view [c]) : 127 < d.toNat := by
  simp only [view, encode, List.flatMap_cons, List.flatMap_nil, List.append_nil] at hd
  obtain ⟨b, hb, rfl⟩ := List.mem_map.mp hd
  rw [toNat_latin]
  exact high_of_mem_encode h hb

/-- The first byte of a character tells it if it is one of the first 128, and is above otherwise. -/
theorem head_view (c : Char) (cs : List Char) : ∃ d ds, view (c :: cs) = d :: ds ∧
    (c.toNat ≤ 127 → d = c) ∧ (127 < c.toNat → 127 < d.toNat) := by
  rw [view_cons]
  by_cases h : c.toNat ≤ 127
  · exact ⟨c, view cs, by rw [view_ascii h, List.singleton_append], fun _ => rfl, fun h' => by omega⟩
  · have hlen : 0 < (view [c]).length := by
      have := c.utf8Size_pos
      rw [length_view, byteLength_cons]
      omega
    obtain ⟨d, ds, hd⟩ := List.exists_cons_of_length_pos hlen
    refine ⟨d, ds ++ view cs, by rw [hd, List.cons_append], fun h' => absurd h' h, fun h' => ?_⟩
    exact high_of_mem_view h' (by rw [hd]; exact List.mem_cons_self)

theorem mem_view (h : d ∈ view cs) : d ∈ cs ∨ 127 < d.toNat := by
  induction cs with
  | nil => cases h
  | cons c cs ih =>
    rw [view_cons] at h
    rcases List.mem_append.mp h with h | h
    · by_cases hc : c.toNat ≤ 127
      · rw [view_ascii hc, List.mem_singleton] at h
        exact Or.inl (by simp [h])
      · exact Or.inr (high_of_mem_view (by omega) h)
    · exact (ih h).imp_left (List.mem_cons_of_mem c)

theorem eq_of_view_startsWith (h : view [d] <+: view (c :: cs)) : c = d := by
  have hinj : Function.Injective latin := fun a b hab => by
    rw [← UInt8.toNat_inj, ← toNat_latin a, ← toNat_latin b, hab]
  have hdecode : ∀ (c : Char) (bs : List UInt8),
      ByteArray.utf8DecodeChar? (encode [c] ++ bs).toByteArray 0 = some c := fun c bs => by
    have := @ByteArray.utf8DecodeChar?_utf8EncodeChar_append bs.toByteArray c
    rwa [← List.toByteArray_append, ← List.flatMap_singleton String.utf8EncodeChar c] at this
  obtain ⟨bs, hbs⟩ : encode [d] <+: encode (c :: cs) := (List.prefix_map_iff_of_injective hinj).mp h
  have hc := hdecode c (encode cs)
  rw [← encode_append, List.singleton_append, ← hbs, hdecode d bs] at hc
  exact (Option.some.inj hc).symm

theorem view_startsWith (h : ∀ c ∈ as, c.toNat ≤ 127) : as <+: view cs ↔ as <+: cs := by
  induction as generalizing cs with
  | nil => simp
  | cons a as ih =>
    obtain ⟨ha, has⟩ := List.forall_mem_cons.mp h
    cases cs with
    | nil => simp [view, encode]
    | cons c cs =>
      by_cases hc : c.toNat ≤ 127
      · rw [view_cons, view_ascii hc, List.singleton_append, List.cons_prefix_cons,
          List.cons_prefix_cons, ih has]
      · obtain ⟨d, ds, hd, -, hhigh⟩ := head_view c cs
        have hdc := hhigh (by omega)
        rw [hd, List.cons_prefix_cons, List.cons_prefix_cons]
        constructor
        · rintro ⟨rfl, -⟩
          omega
        · rintro ⟨rfl, -⟩
          omega

/-- A byte below 128 stands where a character does. -/
theorem exists_of_getElem?_encode (h : (encode cs)[n]? = some b) (hb : b.toNat ≤ 127) :
    ∃ before behind, cs = before ++ latin b :: behind ∧ n = byteLength before := by
  induction cs generalizing n with
  | nil => cases h
  | cons c cs ih =>
    have hsplit : encode (c :: cs) = encode [c] ++ encode cs := encode_append [c] cs
    have hone : (encode [c]).length = c.utf8Size := by simp
    rw [hsplit] at h
    by_cases hn : n < c.utf8Size
    · rw [List.getElem?_append_left (by omega)] at h
      have hmem : latin b ∈ view [c] := List.mem_map_of_mem (List.mem_of_getElem? h)
      by_cases hc : c.toNat ≤ 127
      · rw [view_ascii hc] at hmem
        rw [utf8Size_eq_one hc] at hn
        exact ⟨[], cs, by rw [List.mem_singleton.mp hmem, List.nil_append],
          by rw [byteLength_nil]; omega⟩
      · have := high_of_mem_view (by omega) hmem
        rw [toNat_latin] at this
        omega
    · rw [List.getElem?_append_right (by omega), hone] at h
      obtain ⟨before, behind, rfl, hlen⟩ := ih h
      exact ⟨c :: before, behind, rfl, by rw [byteLength_cons]; omega⟩

end Bytes

section Source
variable {s : Source} {n : Nat} {cs as : List Char} {b : UInt8}

theorem Source.bytes_eq (s : Source) : s.bytes = encode s.chars := by
  have hutf8 : s.body.toUTF8 = s.body.toList.utf8Encode := String.utf8Encode_toList.symm
  rw [Source.bytes, hutf8, List.utf8Encode, encode, Source.chars]
  simp

theorem Source.length_bytes (s : Source) : s.bytes.length = s.size := by
  rw [s.bytes_eq, length_encode, Source.size]

theorem Source.TextFrom.size_eq (h : s.TextFrom n cs) : s.size = n + byteLength cs := by
  obtain ⟨before, hs, rfl⟩ := h
  rw [Source.size, hs, byteLength_append]

theorem Source.TextFrom.length_bytes (h : s.TextFrom n cs) : s.bytes.length = n + byteLength cs :=
  s.length_bytes.trans h.size_eq

theorem Source.TextFrom.drop_bytes (h : s.TextFrom n cs) : s.bytes.drop n = encode cs := by
  obtain ⟨before, hs, rfl⟩ := h
  rw [s.bytes_eq, hs, encode_append, ← length_encode, List.drop_left]

theorem Source.textFrom_of_byte (h : s.bytes[n]? = some b) (hb : b.toNat ≤ 127) :
    ∃ cs, s.TextFrom n (latin b :: cs) := by
  rw [s.bytes_eq] at h
  obtain ⟨before, behind, hs, hn⟩ := exists_of_getElem?_encode h hb
  exact ⟨behind, before, hs, hn⟩

end Source

end QueryDocs
