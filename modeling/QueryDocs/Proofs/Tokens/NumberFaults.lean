import QueryDocs.Proofs.Tokens.Number

/-! # Where numbers break off

A step of a reading looks no further than at the character behind the part that it takes (`Looks`). So a
number that cannot be read breaks off behind the longest start of a number that stands in the text:
what was taken can be completed (`exists_isNumber_of_error`), and nothing longer can
(`length_le_of_error`). -/

namespace QueryDocs.Number

/-! ### Looking ahead -/

section Looks
variable {f g : Reading → Step} {r r' : Reading} {part rest : List Char} {fault : NumberFault}

/-- From a reading a step takes a part of the text, and whether it fails behind this part depends on the
next character alone. -/
def LooksAt (f : Reading → Step) (r : Reading) : Prop :=
  ∃ part rest, r.rest = part ++ rest ∧
    ∃ x : Reading → Step, (x = .ok ∨ ∃ fault, x = fun r' => .error (r', fault)) ∧
      ∀ rest', rest'.head? = rest.head? → f ⟨r.taken, part ++ rest'⟩ = x ⟨r.taken ++ part, rest'⟩

/-- A step looks no further than at the character behind the part that it takes. -/
def Looks (f : Reading → Step) : Prop := ∀ r, LooksAt f r

/-- Behind a part that it takes anyway, a step goes on like another one. -/
theorem LooksAt.behind (hover : r.Over part r') (hg : LooksAt g r')
    (h : ∀ rest', rest'.head? = r'.rest.head? →
      f ⟨r.taken, part ++ rest'⟩ = g ⟨r'.taken, rest'⟩) : LooksAt f r := by
  obtain ⟨part', rest', hrest, x, hx, hsame⟩ := hg
  refine ⟨part ++ part', rest', by rw [hover.1, hrest, List.append_assoc], x, hx, fun k hk => ?_⟩
  have hhead : (part' ++ k).head? = r'.rest.head? := by
    rw [hrest, List.head?_append, List.head?_append, hk]
  rw [List.append_assoc, h _ hhead, hsame k hk, hover.2, List.append_assoc]

/-- A step that takes nothing decides by the next character. -/
theorem LooksAt.stay {x : Reading → Step} (hx : x = .ok ∨ ∃ fault, x = fun r' => .error (r', fault))
    (h : ∀ rest', rest'.head? = r.rest.head? → f ⟨r.taken, rest'⟩ = x ⟨r.taken, rest'⟩) :
    LooksAt f r := by
  refine ⟨[], r.rest, rfl, x, hx, fun rest' hrest => ?_⟩
  rw [List.append_nil]
  exact h rest' hrest

theorem Looks.bind (hf : Looks f) (hg : Looks g) : Looks fun r => f r >>= g := by
  intro r
  obtain ⟨part, rest, hr, x, rfl | ⟨fault, rfl⟩, hx⟩ := hf r
  · refine LooksAt.behind ⟨hr, rfl⟩ (hg ⟨r.taken ++ part, rest⟩) fun rest' h => ?_
    simp only [hx rest' h]
    rfl
  · refine ⟨part, rest, hr, _, Or.inr ⟨fault, rfl⟩, fun rest' h => ?_⟩
    simp only [hx rest' h]
    rfl

theorem looks_optional (p : Char → Bool) : Looks fun r => .ok (optional p r) := by
  intro r
  by_cases hp : ∃ c rest, r.rest = c :: rest ∧ p c = true
  · obtain ⟨c, rest, hr, hc⟩ := hp
    refine ⟨[c], rest, hr, _, Or.inl rfl, fun rest' _ => ?_⟩
    simp [optional, hc]
  · have hstop : Stops p r.rest := fun c hc => by
      obtain ⟨rest, hrest⟩ := List.head?_eq_some_iff.mp hc
      rw [← Bool.not_eq_true]
      exact fun h => hp ⟨c, rest, hrest, h⟩
    refine .stay (Or.inl rfl) fun rest' h => ?_
    have hover : Reading.Over ⟨r.taken, rest'⟩ [] ⟨r.taken, rest'⟩ := Reading.over_nil.mpr rfl
    rw [optional_eq hover (Or.inl ⟨rfl, hstop.of_head? h⟩)]

theorem looks_digits : Looks digits := by
  intro r
  have hall : ∀ c ∈ r.rest.takeWhile Char.isDigit, c.isDigit = true := fun c hc =>
    List.mem_takeWhile_imp hc
  have hstop := stops_dropWhile Char.isDigit r.rest
  have hsplit := List.takeWhile_append_dropWhile (p := Char.isDigit) (l := r.rest)
  by_cases hne : r.rest.takeWhile Char.isDigit = []
  · refine .stay (Or.inr ⟨.missingDigit r.rest.head?, rfl⟩) fun rest' h => ?_
    have hstop' : Stops Char.isDigit rest' := by
      rw [← hsplit, hne] at h
      exact hstop.of_head? h
    have hnone : rest'.takeWhile Char.isDigit = [] := @takeWhile_append_stops _ [] rest' (by simp) hstop'
    simp only [digits, hnone, h]
  · refine ⟨_, _, hsplit.symm, _, Or.inl rfl, fun rest' h => ?_⟩
    exact digits_eq_ok.mpr ⟨_, ⟨hne, hall⟩, ⟨rfl, rfl⟩, hstop.of_head? h⟩

theorem whole_of_head? (h : r.rest.head? ≠ some '0') : whole r = digits r := by
  unfold whole
  split
  · next hr => exact absurd (by rw [hr]; rfl) h
  · rfl

theorem looks_whole : Looks whole := by
  intro r
  by_cases hzero : r.rest.head? = some '0'
  · obtain ⟨rest, hr⟩ := List.head?_eq_some_iff.mp hzero
    by_cases hd : ∃ d ∈ rest.head?, d.isDigit = true
    · obtain ⟨d, hd, hdigit⟩ := hd
      refine ⟨['0'], rest, hr, _, Or.inr ⟨.digitAfterZero d, rfl⟩, fun rest' h => ?_⟩
      obtain ⟨k, rfl⟩ := List.head?_eq_some_iff.mp (h.trans hd)
      simp [whole, hdigit]
    · have hstop : Stops Char.isDigit rest := by
        intro d hd'
        rw [← Bool.not_eq_true]
        exact fun h => hd ⟨d, hd', h⟩
      refine ⟨['0'], rest, hr, _, Or.inl rfl, fun rest' h => ?_⟩
      exact whole_eq_ok.mpr ⟨['0'], ⟨⟨by simp, by simp⟩, by simp⟩, ⟨rfl, rfl⟩, hstop.of_head? h⟩
  · refine LooksAt.behind (Reading.over_nil.mpr rfl) (looks_digits r) fun rest' h => ?_
    exact whole_of_head? (by rwa [List.nil_append, h])

theorem looks_fraction : Looks fraction := by
  intro r
  by_cases hdot : r.rest.head? = some '.'
  · obtain ⟨rest, hr⟩ := List.head?_eq_some_iff.mp hdot
    exact LooksAt.behind ⟨hr, rfl⟩ (looks_digits ⟨r.taken ++ ['.'], rest⟩) fun _ _ => rfl
  · refine .stay (Or.inl rfl) fun rest' h => ?_
    unfold fraction
    split
    · next hr => exact absurd (by rw [← h, show rest' = _ from hr]; rfl) hdot
    · rfl

theorem looks_exponent : Looks exponent := by
  intro r
  by_cases hmark : ∃ e rest, r.rest = e :: rest ∧ isExponentMark e = true
  · obtain ⟨e, rest, hr, he⟩ := hmark
    refine LooksAt.behind ⟨hr, rfl⟩ ((looks_optional fun s => s == '+' || s == '-').bind looks_digits
      ⟨r.taken ++ [e], rest⟩) fun rest' _ => ?_
    simp only [exponent, List.singleton_append, he, if_true]
    rfl
  · refine .stay (Or.inl rfl) fun rest' h => ?_
    unfold exponent
    split
    · next c rest hr =>
      rw [show rest' = _ from hr] at h
      obtain ⟨k, hk⟩ := List.head?_eq_some_iff.mp h.symm
      rw [if_neg fun hc => hmark ⟨c, k, hk, hc⟩]
    · rfl

theorem looks_close : Looks close := by
  intro r
  cases hr : r.rest with
  | nil =>
    refine .stay (Or.inl rfl) fun rest' h => ?_
    rw [hr, List.head?_nil, List.head?_eq_none_iff] at h
    rw [h]
    rfl
  | cons c rest =>
    have hhead : ∀ {k : List Char}, k.head? = r.rest.head? → ∃ ds, k = c :: ds := fun h =>
      List.head?_eq_some_iff.mp (h.trans (by rw [hr]; rfl))
    by_cases hc : (c == '.' || NameText.isStart c) = true
    · refine .stay (Or.inr ⟨.runsInto c, rfl⟩) fun rest' h => ?_
      obtain ⟨ds, rfl⟩ := hhead h
      simp only [close, hc, if_true]
    · refine .stay (Or.inl rfl) fun rest' h => ?_
      obtain ⟨ds, rfl⟩ := hhead h
      simp [close, hc]

end Looks

/-! ### Numbers -/

section Read
variable {cs part more : List Char} {r r' : Reading} {fault : NumberFault}

/-- What is behind the next character does not matter for a number that breaks off. -/
theorem read_of_head? (h : read cs = .error (r, fault)) : cs = r.taken ++ r.rest ∧
    ∀ rest, rest.head? = r.rest.head? → read (r.taken ++ rest) = .error (⟨r.taken, rest⟩, fault) := by
  have hlooks : Looks fun r => (.ok (optional (· == '-') r) : Step) >>= whole >>= fraction >>= exponent
      >>= close :=
    ((((looks_optional _).bind looks_whole).bind looks_fraction).bind looks_exponent).bind looks_close
  obtain ⟨part, rest, hcs, x, hx, hsame⟩ := hlooks ⟨[], cs⟩
  obtain rfl : cs = part ++ rest := hcs
  have hread : ∀ rest', rest'.head? = rest.head? → read (part ++ rest') = x ⟨part, rest'⟩ := hsame
  rw [hread rest rfl] at h
  rcases hx with rfl | ⟨fault', rfl⟩
  · cases h
  · cases h
    exact ⟨rfl, hread⟩

theorem digits_eq_error (h : digits r = .error (r', fault)) : r' = r := by
  unfold digits at h
  split at h
  · cases h
    rfl
  · cases h

theorem isDigits_zero : IsDigits ['0'] := ⟨by simp, by simp⟩

theorem isWhole_zero : IsWhole ['0'] := ⟨isDigits_zero, by simp⟩

/-! What a step has taken when it fails can be completed to a part of a number. -/

theorem whole_eq_error (h : whole r = .error (r', fault)) :
    ∃ part, r.Over part r' ∧ ∃ more, IsWhole (part ++ more) := by
  by_cases hzero : r.rest.head? = some '0'
  · obtain ⟨rest, hr⟩ := List.head?_eq_some_iff.mp hzero
    have hr' : r' = ⟨r.taken ++ ['0'], rest⟩ := by
      unfold whole at h
      rw [hr] at h
      cases rest with
      | nil => cases h
      | cons c rest =>
        simp only at h
        split_ifs at h
        cases h
        rfl
    exact ⟨['0'], by rw [hr']; exact ⟨hr, rfl⟩, [], isWhole_zero⟩
  · rw [whole_of_head? hzero] at h
    exact ⟨[], Reading.over_nil.mpr (digits_eq_error h), ['0'], isWhole_zero⟩

theorem fraction_eq_error (h : fraction r = .error (r', fault)) :
    ∃ part, r.Over part r' ∧ ∃ more, IsFraction (part ++ more) := by
  unfold fraction at h
  split at h
  · next rest hr =>
    refine ⟨['.'], ?_, ['0'], Or.inr ⟨['0'], rfl, isDigits_zero⟩⟩
    rw [digits_eq_error h]
    exact ⟨hr, rfl⟩
  · cases h

theorem exponent_eq_error (h : exponent r = .error (r', fault)) :
    ∃ part, r.Over part r' ∧ ∃ more, IsExponent (part ++ more) := by
  unfold exponent at h
  split at h
  · next e rest hr =>
    split_ifs at h with he
    obtain ⟨sign, hsign, hover⟩ :=
      optional_over (p := fun s => s == '+' || s == '-') ⟨r.taken ++ [e], rest⟩
    have hsign : sign = [] ∨ sign = ['+'] ∨ sign = ['-'] := by
      rcases hsign with ⟨rfl, -⟩ | ⟨c, rfl, hc⟩
      · exact Or.inl rfl
      · simp only [Bool.or_eq_true, beq_iff_eq] at hc
        rcases hc with rfl | rfl <;> simp
    have hmark : r.Over [e] ⟨r.taken ++ [e], rest⟩ := ⟨hr, rfl⟩
    refine ⟨[e] ++ sign, ?_, ['0'], Or.inr ⟨e, sign, ['0'], by simp, he, hsign, isDigits_zero⟩⟩
    rw [digits_eq_error h]
    exact hmark.trans hover
  · cases h

theorem close_eq_error (h : close r = .error (r', fault)) : r' = r := by
  unfold close at h
  split at h
  · split_ifs at h
    cases h
    rfl
  · cases h

/-- A number breaks off in one of its four steps, or at the check behind them. -/
theorem read_eq_error_steps {x : Reading × NumberFault} (h : read cs = .error x) :
    whole (optional (· == '-') ⟨[], cs⟩) = .error x ∨
    ∃ r₁, whole (optional (· == '-') ⟨[], cs⟩) = .ok r₁ ∧ (fraction r₁ = .error x ∨
      ∃ r₂, fraction r₁ = .ok r₂ ∧ (exponent r₂ = .error x ∨
        ∃ r₃, exponent r₂ = .ok r₃ ∧ close r₃ = .error x)) := by
  unfold read at h
  cases h₁ : whole (optional (· == '-') ⟨[], cs⟩) with
  | error e =>
    rw [h₁] at h
    exact Or.inl h
  | ok r₁ =>
    refine Or.inr ⟨r₁, rfl, ?_⟩
    cases h₂ : fraction r₁ with
    | error e =>
      simp only [h₁, bind, Except.bind, h₂] at h
      exact Or.inl h
    | ok r₂ =>
      refine Or.inr ⟨r₂, rfl, ?_⟩
      cases h₃ : exponent r₂ with
      | error e =>
        simp only [h₁, bind, Except.bind, h₂, h₃] at h
        exact Or.inl h
      | ok r₃ =>
        simp only [h₁, bind, Except.bind, h₂, h₃] at h
        exact Or.inr ⟨r₃, rfl, h⟩

/-- What was taken before a number breaks off is the start of some number. -/
theorem exists_isNumber_of_error (h : read cs = .error (r, fault)) :
    ∃ more, IsNumber (r.taken ++ more) := by
  obtain ⟨sign, hsign, o₀⟩ := optional_over (p := (· == '-')) ⟨[], cs⟩
  have hsign : IsSign sign := by
    rcases hsign with ⟨rfl, -⟩ | ⟨c, rfl, hc⟩
    · exact Or.inl rfl
    · exact Or.inr (by rw [beq_iff_eq.mp hc])
  obtain h | ⟨r₁, h₁, h⟩ := read_eq_error_steps h
  · obtain ⟨part, o₁, more, hw⟩ := whole_eq_error h
    exact ⟨more, sign, part ++ more, [], [], by simp [o₁.2, o₀.2], hsign, hw, Or.inl rfl, Or.inl rfl⟩
  obtain ⟨w, hw, o₁, -⟩ := whole_eq_ok.mp h₁
  obtain h | ⟨r₂, h₂, h⟩ := h
  · obtain ⟨part, o₂, more, hf⟩ := fraction_eq_error h
    exact ⟨more, sign, w, part ++ more, [], by simp [o₂.2, o₁.2, o₀.2], hsign, hw, hf, Or.inl rfl⟩
  obtain ⟨f, hf, o₂, -⟩ := fraction_eq_ok.mp h₂
  obtain h | ⟨r₃, h₃, h⟩ := h
  · obtain ⟨part, o₃, more, he⟩ := exponent_eq_error h
    exact ⟨more, sign, w, f, part ++ more, by simp [o₃.2, o₂.2, o₁.2, o₀.2], hsign, hw, hf, he⟩
  obtain ⟨e, he, o₃, -⟩ := exponent_eq_ok.mp h₃
  refine ⟨[], sign, w, f, e, ?_, hsign, hw, hf, he⟩
  simp [close_eq_error h, o₃.2, o₂.2, o₁.2, o₀.2]

/-- Nothing longer than what was taken is the start of a number. -/
theorem length_le_of_error (h : read cs = .error (r, fault)) (hpart : part <+: cs)
    (hnumber : IsNumber (part ++ more)) : part.length ≤ r.taken.length := by
  obtain ⟨hcs, hread⟩ := read_of_head? h
  by_contra hlt
  rw [not_le] at hlt
  have htaken : r.taken <+: cs := ⟨r.rest, hcs.symm⟩
  obtain ⟨k, rfl⟩ := List.prefix_of_prefix_length_le htaken hpart hlt.le
  obtain ⟨rest, hrest⟩ := hpart
  have hk : k ≠ [] := by
    rintro rfl
    simp at hlt
  -- the number would break off as well
  have hhead : (k ++ more).head? = r.rest.head? := by
    have hcancel : k ++ rest = r.rest := by
      rw [hcs, List.append_assoc, List.append_cancel_left_eq] at hrest
      exact hrest
    obtain ⟨c, k, rfl⟩ := List.exists_cons_of_ne_nil hk
    rw [← hcancel]
    rfl
  have herror := hread _ hhead
  have hok := read_of_isNumber hnumber (stops_nil continues)
  rw [List.append_nil, List.append_assoc, herror] at hok
  cases hok

end Read

end QueryDocs.Number
