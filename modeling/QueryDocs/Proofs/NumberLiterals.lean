import QueryDocs.Proofs.Tokens.Demand
import QueryDocs.Proofs.Tokens.Faults

/-! # Number literals

Where a minus sign or a digit stands, the longest number is read that its grammar allows, and nothing may
stand behind it that looks like a part of it. Otherwise there is an error behind the longest start of a
number (`Source.next_number`). -/

namespace QueryDocs

open QueryDocs.Text

namespace Number

/-- A text starts with a number, and the text behind the number does not look like a part of it. -/
def Stands (number rest cs : List Char) : Prop :=
  cs = number ++ rest ∧ IsNumber number ∧ Stops continues rest

/-- A text starts with the start of some number, and with no longer one. -/
def LongestStart (part cs : List Char) : Prop :=
  (part <+: cs ∧ ∃ more, IsNumber (part ++ more)) ∧
    ∀ part', part' <+: cs → (∃ more, IsNumber (part' ++ more)) → part'.length ≤ part.length

section Stands
variable {number number' rest rest' cs : List Char} {r : Reading} {fault : NumberFault}

theorem Stands.unique (h : Stands number rest cs) (h' : Stands number' rest' cs) : number = number' := by
  have hr := read_eq_ok_iff.mpr (show cs = (⟨number, rest⟩ : Reading).taken ++ _ ∧ _ from h)
  have hr' := read_eq_ok_iff.mpr (show cs = (⟨number', rest'⟩ : Reading).taken ++ _ ∧ _ from h')
  exact congrArg Reading.taken (Except.ok.inj (hr.symm.trans hr'))

theorem kind_iff (h : IsNumber number) (k : Token.Kind) :
    k = (if isFloat number then .float else .int) ↔
      k = .int ∧ IsInt number ∨ k = .float ∧ ¬ IsInt number := by
  cases hf : isFloat number with
  | false => simp [isInt_iff.mpr ⟨h, hf⟩]
  | true => simp [show ¬ IsInt number from fun hi => by rw [(isInt_iff.mp hi).2] at hf; cases hf]

theorem longestStart_of_error (h : read cs = .error (r, fault)) : LongestStart r.taken cs :=
  ⟨⟨⟨r.rest, (read_of_head? h).1.symm⟩, exists_isNumber_of_error h⟩,
    fun _ hpart ⟨_, hnumber⟩ => length_le_of_error h hpart hnumber⟩

end Stands

end Number

section Next
open Number
variable {s : Source} {p : Token} {offset : Nat} {c : Char} {cs : List Char}

theorem Source.NextAt.next_read (h : s.NextAt p offset (c :: cs)) (hc : c = '-' ∨ c.isDigit = true) :
    s.next p = match read (c :: cs) with
      | .ok r => .ok ⟨if isFloat r.taken then .float else .int, some (String.ofList r.taken),
          ⟨offset, offset + r.taken.length⟩⟩
      | .error (r, fault) => .error ⟨.malformedNumber fault, offset + r.taken.length⟩ := by
  have hne : ∀ d : Char, (d == '-' || d.isDigit) = false → c ≠ d := by
    rintro d hd rfl
    rcases hc with rfl | hc
    · cases hd
    · rw [hc, Bool.or_true] at hd
      cases hd
  have hignored : isIgnored c = false := by
    rw [← Bool.not_eq_true, isIgnored_iff]
    simp only [List.mem_cons, List.not_mem_nil, or_false]
    rintro (hd | hd | hd | hd | hd) <;> exact hne _ (by decide) hd
  have hmark : Token.Kind.ofChar? c = none := by
    rcases hc with rfl | hc
    · rfl
    · exact Token.Kind.ofChar?_of_isPart (NameText.isPart_of_isDigit hc)
  have hopens : (c = '-' || c.isDigit) = true := by simpa using hc
  rw [h.next, scan_of_start (hne _ (by decide)) hignored (hne _ (by decide))]
  unfold scanToken
  rw [hmark]
  simp only [if_neg (hne '.' (by decide)), if_neg (hne '"' (by decide)), if_pos hopens]
  cases read (c :: cs) <;> rfl

/-- **The longest number is read.** Where a minus sign or a digit opens a token, a number is read exactly if
one stands there in front of nothing that looks like a part of it. There is only one such number, which the
token covers; it is an integer unless it has a fraction or an exponent. Otherwise there is an error
behind the longest start of a number. -/
theorem Source.next_number (h : s.NextAt p offset (c :: cs)) (hc : c = '-' ∨ c.isDigit = true) :
    (∀ t, s.next p = .ok t ↔ ∃ number rest, Stands number rest (c :: cs) ∧
      (t.kind = .int ∧ IsInt number ∨ t.kind = .float ∧ ¬ IsInt number) ∧
      t.value = some (String.ofList number) ∧ t.span = ⟨offset, offset + byteLength number⟩) ∧
    (∀ number number' rest rest', Stands number rest (c :: cs) → Stands number' rest' (c :: cs) →
      number = number') ∧
    ((¬ ∃ number rest, Stands number rest (c :: cs)) → ∃ fault part, LongestStart part (c :: cs) ∧
      s.next p = .error ⟨.malformedNumber fault, offset + byteLength part⟩) := by
  have hnext := h.next_read hc
  refine ⟨fun t => ?_, fun _ _ _ _ => Stands.unique, fun hnone => ?_⟩
  · constructor
    · intro ht
      cases hread : read (c :: cs) with
      | error x => rw [hnext, hread] at ht; cases ht
      | ok r =>
        rw [hnext, hread] at ht
        obtain rfl := Except.ok.inj ht
        obtain ⟨hcs, hnumber, hstop⟩ := read_eq_ok_iff.mp hread
        refine ⟨r.taken, r.rest, ⟨hcs, hnumber, hstop⟩, (kind_iff hnumber _).mp rfl, rfl, ?_⟩
        rw [byteLength_eq_length (ascii_of_isNumber hnumber)]
    · rintro ⟨number, rest, ⟨hcs, hnumber, hstop⟩, hkind, hvalue, hspan⟩
      have hread : read (c :: cs) = .ok ⟨number, rest⟩ := read_eq_ok_iff.mpr ⟨hcs, hnumber, hstop⟩
      obtain ⟨kind, value, span⟩ := t
      obtain rfl : kind = _ := (kind_iff hnumber kind).mpr hkind
      obtain rfl : value = _ := hvalue
      obtain rfl : span = _ := hspan
      rw [hnext, hread, byteLength_eq_length (ascii_of_isNumber hnumber)]
  · cases hread : read (c :: cs) with
    | ok r => exact absurd ⟨r.taken, r.rest, read_eq_ok_iff.mp hread⟩ hnone
    | error x =>
      obtain ⟨r, fault⟩ := x
      obtain ⟨more, hnumber⟩ := exists_isNumber_of_error hread
      have hascii : ∀ d ∈ r.taken, d.toNat ≤ 127 := fun d hd =>
        ascii_of_isNumber hnumber d (List.mem_append_left _ hd)
      refine ⟨fault, r.taken, longestStart_of_error hread, ?_⟩
      rw [hnext, hread, byteLength_eq_length hascii]

end Next

/-- A sign, a fraction and an exponent, behind a blank and a name. -/
theorem Source.next_number_signed :
    let s : Source := ⟨"a -1.5e+3, 7", none⟩
    let p : Token := ⟨.name, some "a", ⟨0, 1⟩⟩
    let cs := "1.5e+3, 7".toList
    s.NextAt p 2 ('-' :: cs) ∧ Number.Stands "-1.5e+3".toList ", 7".toList ('-' :: cs) ∧
      s.next p = .ok ⟨.float, some "-1.5e+3", ⟨2, 9⟩⟩ := by
  intro s p cs
  have hchars : s.chars = ['a'] ++ ([' '] ++ '-' :: cs) := by decide +kernel
  have hat : s.NextAt p 2 ('-' :: cs) :=
    ⟨rfl, [' '], ⟨['a'], hchars, rfl⟩, Or.inl (.blank (by simp) .nil), rfl⟩
  have hread : Number.read ('-' :: cs) = .ok ⟨"-1.5e+3".toList, ", 7".toList⟩ := rfl
  have hstands := Number.read_eq_ok_iff.mp hread
  have hkind : Number.isFloat "-1.5e+3".toList = true := rfl
  exact ⟨hat, hstands, ((Source.next_number hat (Or.inl rfl)).1 _).mpr
    ⟨_, _, hstands, (Number.kind_iff hstands.2.1 _).mp (by rw [hkind]; rfl),
      by rw [String.ofList_toList], by decide +kernel⟩⟩

end QueryDocs
