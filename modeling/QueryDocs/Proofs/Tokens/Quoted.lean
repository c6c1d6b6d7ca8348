import QueryDocs.Layout.Piece
import QueryDocs.Proofs.Tokens.Boundary

/-! # Quoted strings

The text between the quotes is a sequence of units, each of which denotes one character: a character
that stands for itself, or an escape. `body_eq_ok_iff` says that reading succeeds exactly on such a
sequence with a quote behind it. So what is read does not depend on the text behind the closing
quote. What is written in double quotes for a text is such a sequence (`spells_flatMap_quotedChar`). -/

namespace QueryDocs.Quoted

open QueryDocs.Text QueryDocs.Layout

/-! ### Units -/

/-- A piece of the text between the quotes that denotes one character. -/
inductive Denotes : List Char → Char → Prop where
  | raw {c : Char} (hq : c ≠ '"') (hb : c ≠ '\\') (hc : 0x20 ≤ c.toNat ∨ c = '\t') : Denotes [c] c
  | letter {e d : Char} (h : letter? e = some d) : Denotes ['\\', e] d
  | point {a b c d : Char} {n : Nat} (h : hex4? a b c d = some n) (hh : isHighSurrogate n = false)
      (hl : isLowSurrogate n = false) : Denotes ['\\', 'u', a, b, c, d] (Char.ofNat n)
  | pair {a b c d a' b' c' d' : Char} {n m : Nat} (h : hex4? a b c d = some n)
      (hh : isHighSurrogate n = true) (h' : hex4? a' b' c' d' = some m)
      (hl : isLowSurrogate m = true) :
      Denotes ['\\', 'u', a, b, c, d, '\\', 'u', a', b', c', d'] (Quoted.pair n m)

/-- A text between quotes and the characters it denotes. -/
inductive Spells : List Char → List Char → Prop where
  | nil : Spells [] []
  | cons {u us : List Char} {c : Char} {v : List Char} (h : Denotes u c) (hs : Spells us v) :
      Spells (u ++ us) (c :: v)

theorem utf8Size_of_hexDigit {c : Char} {n : Nat} (h : hexDigit? c = some n) : c.utf8Size = 1 := by
  have hle : c.toNat ≤ 'f'.toNat := by
    have hto : ∀ {d : Char}, c ≤ d → c.toNat ≤ d.toNat := fun h => UInt32.le_iff_toNat_le.mp h
    unfold hexDigit? at h
    split_ifs at h with h1 h2 h3
    · simp only [Char.isDigit, Bool.and_eq_true, decide_eq_true_eq, ge_iff_le] at h1
      exact (hto (d := '9') h1.2).trans (by decide)
    · exact hto h2.2
    · exact (hto h3.2).trans (by decide)
  exact utf8Size_eq_one (hle.trans (by decide))

theorem byteLength_hex4 {a b c d : Char} {n : Nat} (h : hex4? a b c d = some n) :
    a.utf8Size + (b.utf8Size + (c.utf8Size + d.utf8Size)) = 4 := by
  unfold hex4? at h
  simp only [Option.bind_eq_bind, Option.bind_eq_some_iff] at h
  obtain ⟨_, ha, _, hb, _, hc, _, hd, -⟩ := h
  rw [utf8Size_of_hexDigit ha, utf8Size_of_hexDigit hb, utf8Size_of_hexDigit hc,
    utf8Size_of_hexDigit hd]

theorem utf8Size_backslash : ('\\' : Char).utf8Size = 1 := by decide

theorem utf8Size_u : ('u' : Char).utf8Size = 1 := by decide

theorem byteLength_letter {e d : Char} (h : letter? e = some d) : byteLength ['\\', e] = 2 := by
  have : e.utf8Size = 1 := by
    unfold letter? at h
    split at h <;> first | rfl | cases h
  simp [this, utf8Size_backslash]

theorem byteLength_point {a b c d : Char} {n : Nat} (h : hex4? a b c d = some n) :
    byteLength ['\\', 'u', a, b, c, d] = 6 := by
  simp [byteLength_hex4 h, utf8Size_backslash, utf8Size_u]

theorem byteLength_pair {a b c d a' b' c' d' : Char} {n m : Nat} (h : hex4? a b c d = some n)
    (h' : hex4? a' b' c' d' = some m) :
    byteLength ['\\', 'u', a, b, c, d, '\\', 'u', a', b', c', d'] = 12 := by
  have h1 := byteLength_hex4 h
  have h2 := byteLength_hex4 h'
  simp [utf8Size_backslash, utf8Size_u]
  omega

theorem letter?_u : letter? 'u' = none := by decide

/-- A unit is read as the character it denotes. -/
theorem body_unit {u : List Char} {c : Char} (h : Denotes u c) (opening offset : Nat)
    (acc rest : List Char) :
    body opening acc offset (u ++ rest) = body opening (c :: acc) (offset + byteLength u) rest := by
  cases h with
  | raw hq hb hc =>
    have hn : ¬ (c = '\n' ∨ c = '\r') := by
      rintro (rfl | rfl) <;> revert hc <;> decide
    have ht : ¬ (c.toNat < 0x20 ∧ c ≠ '\t') := by
      rintro ⟨h1, h2⟩
      rcases hc with hc | hc
      · omega
      · exact h2 hc
    rw [List.singleton_append, body.eq_def]
    simp only [hq, hn, hb, ht, if_false, byteLength_cons, byteLength_nil, Nat.add_zero]
  | letter h =>
    rw [byteLength_letter h, List.cons_append, List.singleton_append, body.eq_def]
    simp [h]
  | point h hh hl =>
    rw [byteLength_point h]
    simp only [List.cons_append, List.nil_append]
    rw [body.eq_def]
    simp [letter?_u, h, hh, hl]
  | pair h hh h' hl =>
    rw [byteLength_pair h h']
    simp only [List.cons_append, List.nil_append]
    rw [body.eq_def]
    simp [letter?_u, h, hh, h', hl]

/-- **Exactly the sequences of units can be read**: they go up to the closing quote. -/
theorem body_eq_ok_iff {opening offset stop : Nat} {acc cs v rest : List Char} :
    body opening acc offset cs = .ok (v, stop, rest) ↔
      ∃ u w, Spells u w ∧ cs = u ++ '"' :: rest ∧ v = acc.reverse ++ w ∧
        stop = offset + byteLength u + 1 := by
  constructor
  · intro h
    fun_induction body opening acc offset cs <;> try contradiction
    case case2 => cases h; exact ⟨[], [], .nil, by simp⟩
    case case5 hd _ _ ih =>
      obtain ⟨u, w, hs, rfl, rfl, rfl⟩ := ih h
      exact ⟨_, _, .cons (.letter hd) hs, rfl, by simp, by
        rw [byteLength_append, byteLength_letter hd]; omega⟩
    case case9 hu h₁ h₂ h₃ h₄ n hn hhigh l₁ l₂ l₃ l₄ after m hm hlow _ _ ih =>
      obtain ⟨u, w, hs, rfl, rfl, rfl⟩ := ih h
      rw [not_not.mp hu]
      exact ⟨_, _, .cons (.pair hn hhigh hm hlow) hs, rfl, by simp, by
        rw [byteLength_append, byteLength_pair hn hm]; omega⟩
    case case13 hu h₁ h₂ h₃ h₄ after n hn hhigh hlow _ _ ih =>
      obtain ⟨u, w, hs, rfl, rfl, rfl⟩ := ih h
      rw [not_not.mp hu]
      exact ⟨_, _, .cons (.point hn (by simpa using hhigh) (by simpa using hlow)) hs, rfl, by simp,
        by rw [byteLength_append, byteLength_point hn]; omega⟩
    case case16 c after hq hn hb ht ih =>
      obtain ⟨u, w, hs, rfl, rfl, rfl⟩ := ih h
      have hc : 0x20 ≤ c.toNat ∨ c = '\t' := by
        by_cases hc : c = '\t'
        · exact Or.inr hc
        · exact Or.inl (by by_contra hlt; exact ht ⟨by omega, hc⟩)
      exact ⟨_, _, .cons (.raw hq hb hc) hs, rfl, by simp, by simp; omega⟩
  · rintro ⟨u, w, hs, rfl, rfl, rfl⟩
    induction hs generalizing acc offset with
    | nil =>
      rw [List.nil_append, body.eq_def]
      simp
    | cons h _ ih =>
      rw [List.append_assoc, body_unit h, ih]
      simp
      omega

/-! ### Writing -/

theorem denotes_quotedChar (c : Char) : Denotes (quotedChar c) c := by
  unfold quotedChar
  split
  all_goals first | exact .letter rfl | skip
  next h1 h2 h3 h4 h5 h6 h7 =>
  split
  · next hlt =>
    have key : ∀ n < 0x20, hex4? '0' '0' (Nat.digitChar (n / 16)) (Nat.digitChar (n % 16)).toUpper
        = some n ∧ isHighSurrogate n = false ∧ isLowSurrogate n = false := by decide
    obtain ⟨h, hh, hl⟩ := key c.toNat hlt
    have := Denotes.point h hh hl
    rwa [Char.ofNat_toNat] at this
  · next hge => exact .raw h1 h2 (Or.inl (by omega))

theorem spells_flatMap_quotedChar (text : List Char) : Spells (text.flatMap quotedChar) text := by
  induction text with
  | nil => exact .nil
  | cons c cs ih => exact .cons (denotes_quotedChar c) ih

end QueryDocs.Quoted
