import QueryDocs.Proofs.Outcomes
import QueryDocs.Proofs.Tokens.Demand

/-! # Strings in double quotes

Behind a quote that does not open a block string, a string is read unit by unit. It is the text that its
units denote if a quote stands behind them, and otherwise there is an error: at the opening quote if the
line ends there, or at the first text that is no unit (`Source.next_quoted`). -/

namespace QueryDocs

open QueryDocs.Text

namespace Quoted

/-- A text goes on neither with a unit nor with the closing quote. -/
def Malformed (cs : List Char) : Prop := ¬ ['"'] <+: cs ∧ ∀ u c, Denotes u c → ¬ u <+: cs

/-- What is wrong with a text that goes on neither with a unit nor with the closing quote. -/
def fault : List Char → LexFault
  | [] => .unterminatedString
  | ['\\'] => .unterminatedString
  | '\\' :: 'u' :: cs => .unicodeEscape (String.ofList ('\\' :: 'u' :: cs.take 4))
  | '\\' :: c :: _ => .unknownEscape c
  | c :: _ => if isLineEnd c then .unterminatedString else .unexpectedCharacter c

/-- The error for such a text at an offset: an open string is told at its opening quote. -/
def malformedError (opening offset : Nat) (cs : List Char) : LexError :=
  ⟨fault cs, if fault cs = .unterminatedString then opening else offset⟩

section Body
variable {opening offset : Nat} {acc cs u : List Char} {c : Char} {e : LexError}

theorem Denotes.ne_nil (h : Denotes u c) : u ≠ [] := by
  rintro rfl
  cases h

theorem exists_spells (cs : List Char) :
    ∃ us v rest, Spells us v ∧ cs = us ++ rest ∧ (['"'] <+: rest ∨ Malformed rest) := by
  by_cases hq : ['"'] <+: cs
  · exact ⟨[], [], cs, .nil, rfl, Or.inl hq⟩
  by_cases hu : ∃ u c, Denotes u c ∧ u <+: cs
  · obtain ⟨u, c, hd, rest, rfl⟩ := hu
    have hlt : rest.length < (u ++ rest).length := by
      have := List.length_pos_of_ne_nil hd.ne_nil
      rw [List.length_append]
      omega
    obtain ⟨us, v, rest', hs, rfl, hrest⟩ := exists_spells rest
    exact ⟨u ++ us, c :: v, rest', .cons hd hs, (List.append_assoc _ _ _).symm, hrest⟩
  · exact ⟨[], [], cs, .nil, rfl, Or.inr ⟨hq, fun u c hd hp => hu ⟨u, c, hd, hp⟩⟩⟩
termination_by cs.length

theorem malformedError_point (h : ¬ c ≠ 'u') :
    malformedError opening offset ('\\' :: c :: cs) = unicodeError offset (c :: cs) := by
  rw [not_not.mp h]
  rfl

theorem malformedError_escape (h : c ≠ 'u') :
    malformedError opening offset ('\\' :: c :: cs) = ⟨.unknownEscape c, offset⟩ := by
  simp [malformedError, fault]

theorem malformedError_lineEnd (h : c = '\n' ∨ c = '\r') :
    malformedError opening offset (c :: cs) = ⟨.unterminatedString, opening⟩ := by
  rcases h with rfl | rfl <;> rfl

theorem malformedError_char (hb : c ≠ '\\') (h : ¬ (c = '\n' ∨ c = '\r')) :
    malformedError opening offset (c :: cs) = ⟨.unexpectedCharacter c, offset⟩ := by
  have hend : isLineEnd c = false := by
    rw [← Bool.not_eq_true, isLineEnd_iff]
    tauto
  simp [malformedError, fault, hb, hend]

theorem body_of_malformed (h : Malformed cs) :
    body opening acc offset cs = .error (malformedError opening offset cs) := by
  obtain ⟨hq, hu⟩ := h
  fun_cases body opening acc offset cs
  case case1 => rfl
  case case2 after => exact absurd ⟨after, rfl⟩ hq
  case case3 c after hc hend => rw [malformedError_lineEnd hend]
  case case4 => rfl
  case case6 c after hletter hc _ _ => rw [malformedError_escape hc]
  case case15 c after _ hend hb _ => rw [malformedError_char hb hend]
  -- here a unit stands
  case case5 c after d hd _ _ => exact absurd ⟨after, rfl⟩ (hu _ _ (.letter hd))
  case case9 c _ hc h₁ h₂ h₃ h₄ n hn hhigh l₁ l₂ l₃ l₄ after m hm hlow _ _ =>
    rw [not_not.mp hc] at hu
    exact absurd ⟨after, rfl⟩ (hu _ _ (.pair hn hhigh hm hlow))
  case case13 c _ hc h₁ h₂ h₃ h₄ after n hn hhigh hlow _ _ =>
    rw [not_not.mp hc] at hu
    exact absurd ⟨after, rfl⟩ (hu _ _ (.point hn (by simpa using hhigh) (by simpa using hlow)))
  case case16 c after hq' _ hb hcontrol =>
    have hc : 0x20 ≤ c.toNat ∨ c = '\t' := by
      by_contra hc
      rw [not_or] at hc
      exact hcontrol ⟨by omega, hc.2⟩
    exact absurd ⟨after, rfl⟩ (hu _ _ (.raw hq' hb hc))
  -- an escape by code point denotes no character
  all_goals rw [malformedError_point ‹_›]

theorem body_spells {us v : List Char} (h : Spells us v) (opening offset : Nat) (acc rest : List Char) :
    body opening acc offset (us ++ rest) =
      body opening (v.reverse ++ acc) (offset + byteLength us) rest := by
  induction h generalizing acc offset with
  | nil => rfl
  | cons hd _ ih =>
    rw [List.append_assoc, body_unit hd, ih, byteLength_append, Nat.add_assoc, List.reverse_cons,
      List.append_assoc, List.singleton_append]

/-- **Reading fails exactly at the first text that is no unit.** -/
theorem body_eq_error_iff : body opening acc offset cs = .error e ↔
    ∃ us v rest, Spells us v ∧ cs = us ++ rest ∧ Malformed rest ∧
      e = malformedError opening (offset + byteLength us) rest := by
  constructor
  · intro h
    obtain ⟨us, v, rest, hs, rfl, hrest⟩ := exists_spells cs
    rw [body_spells hs] at h
    rcases hrest with ⟨rest, rfl⟩ | hrest
    · rw [List.singleton_append, body.eq_def] at h
      simp at h
    · rw [body_of_malformed hrest] at h
      exact ⟨us, v, rest, hs, rfl, hrest, (Except.error.inj h).symm⟩
  · rintro ⟨us, v, rest, hs, rfl, hrest, rfl⟩
    rw [body_spells hs, body_of_malformed hrest]

end Body

end Quoted

section Strings
variable {s : Source} {p : Token} {offset : Nat} {cs : List Char}

/-- **A string in double quotes denotes what its units denote.** Behind a quote that opens no block string
a string is read exactly if units and a closing quote stand there; it covers all of this. Otherwise there
is an error: at the opening quote if the text or its line ends first, and else at the first text that is
no unit. -/
theorem Source.next_quoted (h : s.NextAt p offset ('"' :: cs)) (hcs : ¬ ['"', '"'] <+: cs) :
    (∀ t, s.next p = .ok t ↔ ∃ us v rest, Quoted.Spells us v ∧ cs = us ++ '"' :: rest ∧
      t = ⟨.string, some (String.ofList v), ⟨offset, offset + byteLength ('"' :: us ++ ['"'])⟩⟩) ∧
    ∀ e, s.next p = .error e ↔ ∃ us v rest, Quoted.Spells us v ∧ cs = us ++ rest ∧
      Quoted.Malformed rest ∧ e = Quoted.malformedError offset (offset + byteLength ('"' :: us)) rest := by
  have hquote : ('"' : Char).utf8Size = 1 := by decide
  rw [h.next_quote hcs]
  refine ⟨fun t => ?_, fun e => ?_⟩
  · constructor
    · intro ht
      obtain ⟨⟨v, stop, rest⟩, hbody, rfl⟩ := map_eq_ok.mp ht
      obtain ⟨us, w, hs, rfl, hv, hstop⟩ := Quoted.body_eq_ok_iff.mp hbody
      obtain rfl : v = w := hv
      refine ⟨us, v, rest, hs, rfl, ?_⟩
      simp [hstop, hquote]
      omega
    · rintro ⟨us, v, rest, hs, rfl, rfl⟩
      refine map_eq_ok.mpr ⟨(v, _, rest), Quoted.body_eq_ok_iff.mpr ⟨us, v, hs, rfl, rfl, rfl⟩, ?_⟩
      simp [hquote]
      omega
  · rw [map_eq_error, Quoted.body_eq_error_iff]
    simp only [byteLength_cons, hquote, Nat.add_assoc]

end Strings

/-- Escapes by code point and by letter, and two escapes for one character. -/
theorem Source.next_quoted_pair :
    let s : Source := ⟨"a \"\\u00e9\\\"\\uD83D\\ude00\" b", none⟩
    let p : Token := ⟨.name, some "a", ⟨0, 1⟩⟩
    let cs := "\\u00e9\\\"\\uD83D\\ude00\" b".toList
    s.NextAt p 2 ('"' :: cs) ∧ ¬ ['"', '"'] <+: cs ∧
      s.next p = .ok ⟨.string, some "é\"😀", ⟨2, 24⟩⟩ := by
  intro s p cs
  have hchars : s.chars = ['a'] ++ ([' '] ++ '"' :: cs) := by decide +kernel
  have hat : s.NextAt p 2 ('"' :: cs) :=
    ⟨rfl, [' '], ⟨['a'], hchars, rfl⟩, Or.inl (.blank (by simp) .nil), rfl⟩
  have hquote : ¬ ['"', '"'] <+: cs := by decide
  have hspells : Quoted.Spells "\\u00e9\\\"\\uD83D\\ude00".toList "é\"😀".toList :=
    .cons (.point (n := 0xe9) rfl rfl rfl) (.cons (.letter rfl) (.cons (.pair (n := 0xd83d) (m := 0xde00)
      rfl rfl rfl rfl) .nil))
  exact ⟨hat, hquote, ((Source.next_quoted hat hquote).1 _).mpr
    ⟨_, _, " b".toList, hspells, by decide +kernel, by decide +kernel⟩⟩

end QueryDocs
