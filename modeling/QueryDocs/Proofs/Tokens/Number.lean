import QueryDocs.Proofs.Tokens.Boundary

/-! # The grammar of numbers

A number is `sign ++ whole ++ fraction ++ exponent`, where the sign, the fraction and the exponent
may be empty. Reading is exact: `read_eq_ok_iff` says that a number is read off the front of a text
iff it is one by this grammar and the text behind it does not start with a character that would
continue it. -/

namespace QueryDocs

namespace Number

/-! ### The parts of a number -/

/-- One or more digits. -/
def IsDigits (cs : List Char) : Prop := cs ≠ [] ∧ ∀ c ∈ cs, c.isDigit = true

/-- An optional minus sign. -/
def IsSign (cs : List Char) : Prop := cs = [] ∨ cs = ['-']

/-- Digits without a leading zero, or a zero alone. -/
def IsWhole (cs : List Char) : Prop := IsDigits cs ∧ (cs.head? = some '0' → cs = ['0'])

/-- Nothing, or a dot and digits. -/
def IsFraction (cs : List Char) : Prop := cs = [] ∨ ∃ ds, cs = '.' :: ds ∧ IsDigits ds

/-- Nothing, or an exponent mark, an optional sign and digits. -/
def IsExponent (cs : List Char) : Prop :=
  cs = [] ∨ ∃ e sign ds, cs = e :: (sign ++ ds) ∧ isExponentMark e = true ∧
    (sign = [] ∨ sign = ['+'] ∨ sign = ['-']) ∧ IsDigits ds

/-- An integer literal. -/
def IsInt (cs : List Char) : Prop :=
  ∃ sign whole, cs = sign ++ whole ∧ IsSign sign ∧ IsWhole whole

/-- A literal with a fraction or an exponent. -/
def IsFloat (cs : List Char) : Prop :=
  ∃ sign whole fraction exponent, cs = sign ++ whole ++ fraction ++ exponent ∧ IsSign sign ∧
    IsWhole whole ∧ IsFraction fraction ∧ IsExponent exponent ∧ (fraction ≠ [] ∨ exponent ≠ [])

/-- A literal of either kind. -/
def IsNumber (cs : List Char) : Prop :=
  ∃ sign whole fraction exponent, cs = sign ++ whole ++ fraction ++ exponent ∧ IsSign sign ∧
    IsWhole whole ∧ IsFraction fraction ∧ IsExponent exponent

theorem not_isDigit_mark {c : Char} (h : isExponentMark c = true) : c.isDigit = false := by
  simp only [isExponentMark, Bool.or_eq_true, beq_iff_eq] at h
  rcases h with rfl | rfl <;> decide

theorem isStart_mark {c : Char} (h : isExponentMark c = true) : NameText.isStart c = true := by
  simp only [isExponentMark, Bool.or_eq_true, beq_iff_eq] at h
  rcases h with rfl | rfl <;> decide

theorem IsDigits.stops {p : Char → Bool} {ds : List Char} (h : IsDigits ds)
    (hp : ∀ c, c.isDigit = true → p c = false) (cs : List Char) : Stops p (ds ++ cs) := by
  obtain ⟨hne, hall⟩ := h
  cases ds with
  | nil => exact absurd rfl hne
  | cons d ds =>
    rw [List.cons_append, stops_cons]
    exact hp d (hall d List.mem_cons_self)

theorem ne_of_isDigit {c d : Char} (h : c.isDigit = true) (hd : d.isDigit = false) : (c == d) = false :=
  beq_false_of_ne fun he => by rw [he, hd] at h; cases h

/-! ### The steps -/

/-- A reading goes on over a part of the text. -/
def Reading.Over (r : Reading) (part : List Char) (r' : Reading) : Prop :=
  r.rest = part ++ r'.rest ∧ r'.taken = r.taken ++ part

theorem Reading.over_nil {r r' : Reading} : r.Over [] r' ↔ r' = r := by
  cases r; cases r'
  simp [Reading.Over, eq_comm, and_comm]

theorem digits_eq_ok {r r' : Reading} :
    digits r = .ok r' ↔ ∃ ds, IsDigits ds ∧ r.Over ds r' ∧ Stops Char.isDigit r'.rest := by
  constructor
  · intro h
    unfold digits at h
    have hsplit := List.takeWhile_append_dropWhile (p := Char.isDigit) (l := r.rest)
    have hall : ∀ c ∈ r.rest.takeWhile Char.isDigit, c.isDigit = true := fun c hc =>
      List.mem_takeWhile_imp hc
    split at h
    · cases h
    · next ds hne =>
      cases h
      exact ⟨_, ⟨hne, hall⟩, ⟨hsplit.symm, rfl⟩, stops_dropWhile _ _⟩
  · rintro ⟨ds, ⟨hne, hall⟩, hover, hstop⟩
    unfold digits
    rw [hover.1, takeWhile_append_stops hall hstop, dropWhile_append_stops hall hstop]
    cases ds with
    | nil => exact absurd rfl hne
    | cons d ds => exact congrArg Except.ok (by rw [← hover.2])

theorem whole_eq_ok {r r' : Reading} :
    whole r = .ok r' ↔ ∃ ds, IsWhole ds ∧ r.Over ds r' ∧ Stops Char.isDigit r'.rest := by
  unfold whole
  split
  · next rest hr =>
    constructor
    · intro h
      refine ⟨['0'], ⟨⟨by simp, by simp⟩, by simp⟩, ?_⟩
      cases rest with
      | nil => cases h; exact ⟨⟨by simp [hr], rfl⟩, by simp⟩
      | cons c cs =>
        by_cases hc : c.isDigit = true
        · simp [hc] at h
        · simp only [hc] at h
          cases h
          exact ⟨⟨by simp [hr], rfl⟩, by simpa using hc⟩
    · rintro ⟨ds, ⟨⟨hne, -⟩, hz⟩, hover, hstop⟩
      have hds : ds = ['0'] := by
        cases ds with
        | nil => exact absurd rfl hne
        | cons d ds =>
          have h0 := hover.1
          rw [hr, List.cons_append, List.cons.injEq] at h0
          exact hz (by rw [← h0.1]; rfl)
      subst hds
      have hrest : rest = r'.rest := by simpa [hr] using hover.1
      have hr' : (⟨r.taken ++ ['0'], rest⟩ : Reading) = r' := by rw [hrest, ← hover.2]
      subst hrest
      cases hrr : r'.rest with
      | nil => rw [hrr] at hr'; exact congrArg _ hr'
      | cons c cs =>
        rw [hrr] at hstop hr'
        simpa [stops_cons.mp hstop] using hr'
  · next hne0 =>
    rw [digits_eq_ok]
    constructor
    · rintro ⟨ds, hds, hover, hstop⟩
      refine ⟨ds, ⟨hds, fun h0 => ?_⟩, hover, hstop⟩
      cases ds with
      | nil => simp at h0
      | cons d ds =>
        simp only [List.head?_cons, Option.some.injEq] at h0
        exact absurd (by rw [hover.1, h0]; rfl) (hne0 (ds ++ r'.rest))
    · rintro ⟨ds, hds, hover, hstop⟩
      exact ⟨ds, hds.1, hover, hstop⟩

theorem fraction_eq_ok {r r' : Reading} :
    fraction r = .ok r' ↔ ∃ fs, IsFraction fs ∧ r.Over fs r' ∧
      (if fs = [] then Stops (· == '.') r'.rest else Stops Char.isDigit r'.rest) := by
  unfold fraction
  split
  · next rest hr =>
    rw [digits_eq_ok]
    constructor
    · rintro ⟨ds, hds, ⟨h1, h2⟩, hstop⟩
      refine ⟨'.' :: ds, Or.inr ⟨ds, rfl, hds⟩, ⟨?_, ?_⟩, by simpa using hstop⟩
      · rw [hr, List.cons_append]; exact congrArg _ h1
      · rw [h2, List.append_assoc]; rfl
    · rintro ⟨fs, hfs | ⟨ds, rfl, hds⟩, ⟨h1, h2⟩, hstop⟩
      · subst hfs
        rw [hr, List.nil_append] at h1
        rw [if_pos rfl, ← h1] at hstop
        simp at hstop
      · rw [hr, List.cons_append, List.cons.injEq] at h1
        exact ⟨ds, hds, ⟨h1.2, by rw [h2, List.append_assoc]; rfl⟩, by simpa using hstop⟩
  · next hne =>
    constructor
    · intro h
      cases h
      refine ⟨[], Or.inl rfl, Reading.over_nil.mpr rfl, ?_⟩
      rw [if_pos rfl]
      intro c hc
      cases hrr : r.rest with
      | nil => simp [hrr] at hc
      | cons d ds =>
        rw [hrr, List.head?_cons, Option.mem_some_iff] at hc
        subst hc
        by_contra hd
        simp only [Bool.not_eq_false, beq_iff_eq] at hd
        exact hne ds (by rw [hrr, hd])
    · rintro ⟨fs, rfl | ⟨ds, rfl, -⟩, hover, -⟩
      · rw [Reading.over_nil.mp hover]
      · exact absurd hover.1 (hne _)

theorem optional_over {p : Char → Bool} (r : Reading) :
    ∃ u, (u = [] ∧ Stops p r.rest ∨ ∃ c, u = [c] ∧ p c = true) ∧ r.Over u (optional p r) := by
  unfold optional
  split
  · next c rest hr =>
    by_cases hc : p c = true
    · rw [if_pos hc]
      exact ⟨[c], Or.inr ⟨c, rfl, hc⟩, by simp [hr], rfl⟩
    · rw [if_neg hc]
      exact ⟨[], Or.inl ⟨rfl, by simpa [hr] using hc⟩, Reading.over_nil.mpr rfl⟩
  · next hr => exact ⟨[], Or.inl ⟨rfl, by simp [hr]⟩, Reading.over_nil.mpr rfl⟩

theorem optional_eq {p : Char → Bool} {r r' : Reading} {u : List Char} (hover : r.Over u r')
    (hu : u = [] ∧ Stops p r'.rest ∨ ∃ c, u = [c] ∧ p c = true) : optional p r = r' := by
  rcases hu with ⟨rfl, hstop⟩ | ⟨c, rfl, hc⟩
  · obtain rfl := Reading.over_nil.mp hover
    unfold optional
    split
    · next c rest hr =>
      rw [hr, stops_cons] at hstop
      rw [if_neg (by rw [hstop]; simp)]
    · rfl
  · unfold optional
    rw [hover.1, List.singleton_append]
    simp only [hc, if_true]
    rw [← hover.2]

theorem Reading.Over.trans {r r' r'' : Reading} {u v : List Char} (h : r.Over u r')
    (h' : r'.Over v r'') : r.Over (u ++ v) r'' :=
  ⟨by rw [h.1, h'.1, List.append_assoc], by rw [h'.2, h.2, List.append_assoc]⟩

/-- A reading in the middle of a part. -/
theorem Reading.Over.split {r r'' : Reading} {u v : List Char} (h : r.Over (u ++ v) r'') :
    ∃ r', r.Over u r' ∧ r'.Over v r'' :=
  ⟨⟨r.taken ++ u, v ++ r''.rest⟩, ⟨by rw [h.1, List.append_assoc], rfl⟩,
    rfl, by rw [h.2, List.append_assoc]⟩

theorem exponent_eq_ok {r r' : Reading} :
    exponent r = .ok r' ↔ ∃ es, IsExponent es ∧ r.Over es r' ∧
      (if es = [] then Stops isExponentMark r'.rest else Stops Char.isDigit r'.rest) := by
  constructor
  · intro h
    unfold exponent at h
    split at h
    · next c rest hr =>
      by_cases hc : isExponentMark c = true
      · rw [if_pos hc] at h
        obtain ⟨ds, hds, hover, hstop⟩ := digits_eq_ok.mp h
        obtain ⟨sign, hsign, hover'⟩ :=
          optional_over (p := fun s => s == '+' || s == '-') ⟨r.taken ++ [c], rest⟩
        have hmark : r.Over [c] ⟨r.taken ++ [c], rest⟩ := ⟨by simp [hr], rfl⟩
        refine ⟨c :: (sign ++ ds), Or.inr ⟨c, sign, ds, rfl, hc, ?_, hds⟩, ?_, by simpa using hstop⟩
        · rcases hsign with ⟨rfl, -⟩ | ⟨s, rfl, hs⟩
          · exact Or.inl rfl
          · simp only [Bool.or_eq_true, beq_iff_eq] at hs
            rcases hs with rfl | rfl <;> simp
        · exact hmark.trans (hover'.trans hover)
      · rw [if_neg hc] at h
        cases h
        exact ⟨[], Or.inl rfl, Reading.over_nil.mpr rfl, by simpa [hr] using hc⟩
    · next hr =>
      cases h
      exact ⟨[], Or.inl rfl, Reading.over_nil.mpr rfl, by simp [hr]⟩
  · rintro ⟨es, rfl | ⟨e, sign, ds, rfl, he, hsign, hds⟩, hover, hstop⟩
    · obtain rfl := Reading.over_nil.mp hover
      rw [if_pos rfl] at hstop
      unfold exponent
      split
      · next c rest hr =>
        rw [hr, stops_cons] at hstop
        rw [if_neg (by rw [hstop]; simp)]
      · rfl
    · rw [if_neg (by simp)] at hstop
      obtain ⟨r₁, hover₁, hover₂⟩ := Reading.Over.split (u := [e]) hover
      obtain ⟨r₂, hover₂, hover₃⟩ := hover₂.split
      have hopt : optional (fun s => s == '+' || s == '-') r₁ = r₂ := by
        refine optional_eq hover₂ ?_
        rcases hsign with rfl | rfl | rfl
        · refine Or.inl ⟨rfl, ?_⟩
          rw [hover₃.1]
          exact hds.stops (fun c hc => by
            rw [ne_of_isDigit hc (by decide), ne_of_isDigit hc (by decide), Bool.or_self]) _
        · exact Or.inr ⟨'+', rfl, by decide⟩
        · exact Or.inr ⟨'-', rfl, by decide⟩
      have hr₁ : r₁ = ⟨r.taken ++ [e], r₁.rest⟩ := by rw [← hover₁.2]
      unfold exponent
      rw [hover₁.1, List.singleton_append]
      simp only [he, if_true]
      rw [← hr₁, hopt]
      exact digits_eq_ok.mpr ⟨ds, hds, hover₃, hstop⟩

theorem close_eq_ok {r r' : Reading} :
    close r = .ok r' ↔ r' = r ∧ Stops (fun c => c == '.' || NameText.isStart c) r.rest := by
  unfold close
  split
  · next c rest hr =>
    rw [hr, stops_cons]
    by_cases hc : (c == '.' || NameText.isStart c) = true
    · simp [hc]
    · simp [hc, eq_comm]
  · next hr => simp [hr, eq_comm]

/-! ### The whole number -/

theorem isFloat_append (as bs : List Char) : isFloat (as ++ bs) = (isFloat as || isFloat bs) := by
  simp [isFloat]

theorem isFloat_of_isDigits {ds : List Char} (h : IsDigits ds) : isFloat ds = false := by
  rw [isFloat, List.any_eq_false]
  intro c hc hm
  have hd := h.2 c hc
  rcases Bool.or_eq_true _ _ ▸ hm with hm | hm
  · rw [beq_iff_eq.mp hm] at hd
    cases hd
  · rw [not_isDigit_mark hm] at hd
    cases hd

theorem isFloat_of_isSign {cs : List Char} (h : IsSign cs) : isFloat cs = false := by
  rcases h with rfl | rfl <;> rfl

theorem isFloat_of_isFraction {cs : List Char} (h : IsFraction cs) : isFloat cs = !cs.isEmpty := by
  rcases h with rfl | ⟨ds, rfl, -⟩ <;> simp [isFloat]

theorem isFloat_of_isExponent {cs : List Char} (h : IsExponent cs) : isFloat cs = !cs.isEmpty := by
  rcases h with rfl | ⟨e, sign, ds, rfl, he, -⟩
  · rfl
  · simp [isFloat, he]

theorem isInt_iff {cs : List Char} : IsInt cs ↔ IsNumber cs ∧ isFloat cs = false := by
  constructor
  · rintro ⟨sign, whole, rfl, hs, hw⟩
    refine ⟨⟨sign, whole, [], [], by simp, hs, hw, Or.inl rfl, Or.inl rfl⟩, ?_⟩
    rw [isFloat_append, isFloat_of_isSign hs, isFloat_of_isDigits hw.1]
    rfl
  · rintro ⟨⟨sign, whole, fraction, exponent, rfl, hs, hw, hf, he⟩, h⟩
    rw [isFloat_append, isFloat_append, isFloat_of_isFraction hf, isFloat_of_isExponent he] at h
    simp only [Bool.or_eq_false_iff, Bool.not_eq_false', List.isEmpty_iff] at h
    obtain ⟨⟨-, rfl⟩, rfl⟩ := h
    exact ⟨sign, whole, by simp, hs, hw⟩

theorem isFloat_iff {cs : List Char} : IsFloat cs ↔ IsNumber cs ∧ isFloat cs = true := by
  constructor
  · rintro ⟨sign, whole, fraction, exponent, rfl, hs, hw, hf, he, hne⟩
    refine ⟨⟨sign, whole, fraction, exponent, rfl, hs, hw, hf, he⟩, ?_⟩
    rw [isFloat_append, isFloat_append, isFloat_of_isFraction hf, isFloat_of_isExponent he]
    rcases hne with hne | hne <;> simp [hne]
  · rintro ⟨⟨sign, whole, fraction, exponent, rfl, hs, hw, hf, he⟩, h⟩
    refine ⟨sign, whole, fraction, exponent, rfl, hs, hw, hf, he, ?_⟩
    rw [isFloat_append, isFloat_append, isFloat_append, isFloat_of_isSign hs, isFloat_of_isDigits hw.1,
      isFloat_of_isFraction hf, isFloat_of_isExponent he] at h
    by_contra hn
    rw [not_or, not_not, not_not] at hn
    rw [hn.1, hn.2] at h
    cases h

theorem stops_dot_of_exponent {es cs : List Char} (he : IsExponent es) (h : Stops continues cs) :
    Stops (fun c => c == '.' || c.isDigit) (es ++ cs) := by
  rcases he with rfl | ⟨e, sign, ds, rfl, he, -⟩
  · exact h.mono fun c hc => by
      unfold continues
      rcases Bool.or_eq_true _ _ ▸ hc with hc | hc <;> simp [hc]
  · rw [List.cons_append, stops_cons, not_isDigit_mark he]
    simp only [isExponentMark, Bool.or_eq_true, beq_iff_eq] at he
    rcases he with rfl | rfl <;> decide

/-- A number is read by its four steps and the check behind them. -/
theorem read_eq_ok_steps {cs : List Char} {r : Reading} :
    read cs = .ok r ↔ ∃ r₁ r₂ r₃, whole (optional (· == '-') ⟨[], cs⟩) = .ok r₁ ∧
      fraction r₁ = .ok r₂ ∧ exponent r₂ = .ok r₃ ∧ close r₃ = .ok r := by
  unfold read
  cases whole (optional (· == '-') ⟨[], cs⟩) with
  | error e => simp [bind, Except.bind]
  | ok r₁ =>
    cases h₂ : fraction r₁ with
    | error e => simp [bind, Except.bind, h₂]
    | ok r₂ => cases h₃ : exponent r₂ <;> simp [bind, Except.bind, h₂, h₃]

/-- No digit stands behind a number: the last part that is not empty takes all of them. -/
theorem stops_isDigit {r₁ r₂ r₃ : Reading} {f e : List Char} (h₁ : Stops Char.isDigit r₁.rest)
    (o₂ : r₁.Over f r₂)
    (h₂ : if f = [] then Stops (· == '.') r₂.rest else Stops Char.isDigit r₂.rest)
    (o₃ : r₂.Over e r₃)
    (h₃ : if e = [] then Stops isExponentMark r₃.rest else Stops Char.isDigit r₃.rest) :
    Stops Char.isDigit r₃.rest := by
  by_cases he : e = []
  · subst he
    obtain rfl := Reading.over_nil.mp o₃
    by_cases hf : f = []
    · subst hf
      obtain rfl := Reading.over_nil.mp o₂
      exact h₁
    · rwa [if_neg hf] at h₂
  · rwa [if_neg he] at h₃

/-- What was read is a number, and the text behind it does not go on with it. -/
theorem isNumber_of_read {cs : List Char} {r : Reading} (h : read cs = .ok r) :
    cs = r.taken ++ r.rest ∧ IsNumber r.taken ∧ Stops continues r.rest := by
  obtain ⟨r₁, r₂, r₃, h₁, h₂, h₃, h₄⟩ := read_eq_ok_steps.mp h
  obtain ⟨sign, hsign, o₀⟩ := optional_over (p := (· == '-')) ⟨[], cs⟩
  obtain ⟨w, hw, o₁, s₁⟩ := whole_eq_ok.mp h₁
  obtain ⟨f, hf, o₂, s₂⟩ := fraction_eq_ok.mp h₂
  obtain ⟨e, he, o₃, s₃⟩ := exponent_eq_ok.mp h₃
  obtain ⟨rfl, s₄⟩ := close_eq_ok.mp h₄
  have hover := ((o₀.trans o₁).trans o₂).trans o₃
  have htaken : r.taken = sign ++ w ++ f ++ e := hover.2
  have hminus : IsSign sign := by
    rcases hsign with ⟨rfl, -⟩ | ⟨c, rfl, hc⟩
    · exact Or.inl rfl
    · exact Or.inr (by rw [beq_iff_eq.mp hc])
  have hdigit := stops_isDigit s₁ o₂ s₂ o₃ s₃
  refine ⟨by rw [htaken]; exact hover.1, ⟨sign, w, f, e, htaken, hminus, hw, hf, he⟩, fun c hc => ?_⟩
  have h1 := hdigit c hc
  have h2 := s₄ c hc
  simp only [Bool.or_eq_false_iff] at h2
  simp [continues, h1, h2]

/-- A number is read off the front of a text that does not go on with it. -/
theorem read_of_isNumber {cs rest : List Char} (h : IsNumber cs) (hstop : Stops continues rest) :
    read (cs ++ rest) = .ok ⟨cs, rest⟩ := by
  obtain ⟨sign, w, f, e, rfl, hsign, hw, hf, he⟩ := h
  have hover : Reading.Over ⟨[], sign ++ w ++ f ++ e ++ rest⟩ (sign ++ (w ++ (f ++ e)))
      ⟨sign ++ w ++ f ++ e, rest⟩ := ⟨by simp, by simp⟩
  obtain ⟨r₀, o₀, hover⟩ := hover.split
  obtain ⟨r₁, o₁, hover⟩ := hover.split
  obtain ⟨r₂, o₂, o₃⟩ := hover.split
  have hopt : optional (· == '-') ⟨[], sign ++ w ++ f ++ e ++ rest⟩ = r₀ := by
    refine optional_eq o₀ ?_
    rcases hsign with rfl | rfl
    · refine Or.inl ⟨rfl, ?_⟩
      rw [o₁.1]
      exact hw.1.stops (fun c hc => ne_of_isDigit hc (by decide)) _
    · exact Or.inr ⟨'-', rfl, rfl⟩
  have hlater := stops_dot_of_exponent he hstop
  rw [← o₃.1] at hlater
  have hwhole : Stops Char.isDigit r₁.rest := by
    rcases hf with rfl | ⟨ds, rfl, -⟩
    · obtain rfl := Reading.over_nil.mp o₂
      exact hlater.mono fun c hc => by simp [hc]
    · rw [o₂.1, List.cons_append, stops_cons]
      decide
  have hfraction : if f = [] then Stops (· == '.') r₂.rest else Stops Char.isDigit r₂.rest := by
    split
    · exact hlater.mono fun c hc => by simp only [hc, Bool.true_or]
    · exact hlater.mono fun c hc => by simp [hc]
  have hexponent : if e = [] then Stops isExponentMark rest else Stops Char.isDigit rest := by
    split
    · exact hstop.mono fun c hc => by simp [continues, isStart_mark hc]
    · exact hstop.mono fun c hc => by simp [continues, hc]
  have hclose : Stops (fun c => c == '.' || NameText.isStart c) rest := hstop.mono fun c hc => by
    unfold continues
    rcases Bool.or_eq_true _ _ ▸ hc with hc | hc <;> simp [hc]
  refine read_eq_ok_steps.mpr ⟨r₁, r₂, ⟨sign ++ w ++ f ++ e, rest⟩, ?_,
    fraction_eq_ok.mpr ⟨f, hf, o₂, hfraction⟩, exponent_eq_ok.mpr ⟨e, he, o₃, hexponent⟩,
    close_eq_ok.mpr ⟨rfl, hclose⟩⟩
  rw [hopt]
  exact whole_eq_ok.mpr ⟨w, hw, o₁, hwhole⟩

/-- **A number is read exactly as its grammar says**: as far as the text goes on with it, and only
if the text behind it does not run into it. -/
theorem read_eq_ok_iff {cs : List Char} {r : Reading} :
    read cs = .ok r ↔ cs = r.taken ++ r.rest ∧ IsNumber r.taken ∧ Stops continues r.rest := by
  refine ⟨isNumber_of_read, ?_⟩
  rintro ⟨rfl, hnumber, hstop⟩
  exact read_of_isNumber hnumber hstop

end Number

end QueryDocs
