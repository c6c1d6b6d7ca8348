import QueryDocs.Proofs.Lexer.Trivia
import QueryDocs.Proofs.Tokens.NumberFaults

/-! # Numbers before a lexer

Each part of a number is read from bytes as the step of `Number` for it reads it from characters
(`Steps`), and so is the whole number (`At.readNumber`). -/

namespace QueryDocs.Lexer

open QueryDocs.Text
open Number (Reading Step digits optional whole fraction exponent close isExponentMark isFloat)

/-- A lexer in the course of reading a number that starts at an offset of a source. -/
structure Reads (s : Source) (start : Nat) (l : Lexer) (r : Reading) : Prop where
  source : l.source = s
  text : l.source.TextFrom start (r.taken ++ r.rest)
  ahead : l.At r.rest
  pos : l.pos = start + r.taken.length

/-- An action does with a lexer what a step does with a reading. Its result tells something of the reading
behind the step. -/
def Steps {α : Type} (s : Source) (start : Nat) (m : Action α) (l : Lexer) (p : α → Reading → Prop) : Step → Prop
  | .ok r => ∃ a l', m l = .ok a l' ∧ Reads s start l' r ∧ p a r
  | .error (r, fault) =>
    ∃ l', m l = .error (.lexical ⟨.malformedNumber fault, start + r.taken.length⟩) l' ∧ l'.source = s

section Number
variable {α β : Type} {s : Source} {start : Nat} {l l' : Lexer} {r r' : Reading} {part cs : List Char} {a : α}
  {m : Action α} {f : α → Action β} {x : Step} {g : Reading → Step} {p : α → Reading → Prop}
  {q : β → Reading → Prop} {t : Char → Bool} {fault : NumberFault}

theorem Reads.over (h : Reads s start l r) (hover : r.Over part r') (hascii : ∀ c ∈ part, c.toNat ≤ 127) :
    Reads s start (l.move part.length) r' := by
  obtain ⟨hsource, htext, hahead, hpos⟩ := h
  rw [hover.1] at htext hahead
  refine ⟨hsource, ?_, hahead.move_ascii hascii, ?_⟩
  · rwa [move_source, hover.2, List.append_assoc]
  · rw [move_pos, hpos, hover.2, List.length_append, Nat.add_assoc]

theorem Steps.bind (h : Steps s start m l p x)
    (hf : ∀ a l' r, Reads s start l' r → p a r → Steps s start (f a) l' q (g r)) :
    Steps s start (m >>= f) l q (x >>= g) := by
  cases x with
  | ok r =>
    obtain ⟨a, l', hm, hreads, hp⟩ := h
    have hstep := hf a l' r hreads hp
    change Steps s start (m >>= f) l q (g r)
    cases hg : g r with
    | ok r' =>
      rw [hg] at hstep
      obtain ⟨b, l'', hf', hreads'⟩ := hstep
      exact ⟨b, l'', (bind_ok hm f).trans hf', hreads'⟩
    | error e =>
      rw [hg] at hstep
      obtain ⟨l'', hf', hs⟩ := hstep
      exact ⟨l'', (bind_ok hm f).trans hf', hs⟩
  | error e =>
    obtain ⟨l', hm, hs⟩ := h
    exact ⟨l', bind_error hm f, hs⟩

theorem Steps.after (hm : m l = .ok a l') (h : Steps s start (f a) l' q x) : Steps s start (m >>= f) l q x := by
  cases x with
  | ok r =>
    obtain ⟨b, l'', hf, hreads⟩ := h
    exact ⟨b, l'', (bind_ok hm f).trans hf, hreads⟩
  | error e =>
    obtain ⟨l'', hf, hs⟩ := h
    exact ⟨l'', (bind_ok hm f).trans hf, hs⟩

theorem Steps.mono {q : α → Reading → Prop} (h : Steps s start m l p x) (hq : ∀ a r, x = .ok r → p a r → q a r) :
    Steps s start m l q x := by
  cases x with
  | ok r =>
    obtain ⟨a, l', hm, hreads, hp⟩ := h
    exact ⟨a, l', hm, hreads, hq a r rfl hp⟩
  | error e => exact h

theorem Steps.of_eq {m' : Action α} (hm : m l = m' l) (h : Steps s start m' l p x) : Steps s start m l p x := by
  cases x with
  | ok r => rwa [Steps, hm]
  | error e => rwa [Steps, hm]

theorem Steps.result {b : β} (h : Steps s start m l p x) (hq : ∀ r, x = .ok r → q b r) :
    Steps s start (m >>= fun _ => pure b) l q x := by
  cases x with
  | ok r =>
    obtain ⟨a, l', hm, hreads, -⟩ := h
    exact ⟨b, l', bind_ok hm _, hreads, hq r rfl⟩
  | error e =>
    obtain ⟨l', hm, hs⟩ := h
    exact ⟨l', bind_error hm _, hs⟩

theorem Reads.peek_any (h : Reads s start l r) (ht : ∀ c, t c = true → c.toNat ≤ 127) :
    ∃ v, peek l = .ok v l ∧ v.any t = r.rest.head?.any t :=
  ⟨_, h.ahead.peek, any_head_view ht r.rest⟩

theorem Reads.numberError (h : Reads s start l r) : Steps s start (numberError fault) l p (.error (r, fault)) :=
  ⟨l, by rw [Lexer.numberError, get_bind, fail_run, h.pos], h.source⟩

theorem Reads.expectedDigit (h : Reads s start l r) :
    Steps s start expectedDigit l p (.error (r, .missingDigit r.rest.head?)) := by
  rw [Lexer.expectedDigit]
  exact .after (m := get) rfl (.after h.ahead.charAt h.numberError)

theorem Reads.shown {c : Char} {fault : Char → NumberFault} (h : Reads s start l r)
    (hc : r.rest.head? = some c) :
    Steps s start (do Lexer.numberError (fault (← shownAt (← get).pos))) l p (.error (r, fault c)) := by
  obtain ⟨rest, hrest⟩ := List.head?_eq_some_iff.mp hc
  have hahead := h.ahead
  rw [hrest] at hahead
  exact .after (m := get) rfl (.after hahead.shownAt h.numberError)

theorem Reads.readDigits (h : Reads s start l r) : Steps s start readDigits l (fun _ _ => True) (digits r) := by
  obtain ⟨v, hpeek, hv⟩ := h.peek_any fun c => Number.ascii_of_isDigit
  refine .after hpeek ?_
  rw [hv]
  have hsplit := List.takeWhile_append_dropWhile (p := Char.isDigit) (l := r.rest)
  have hall : ∀ c ∈ r.rest.takeWhile Char.isDigit, c.isDigit = true := fun c hc =>
    List.mem_takeWhile_imp hc
  by_cases hd : r.rest.head?.any Char.isDigit = true
  · obtain ⟨c, rest, hrest, hc⟩ := any_head.mp hd
    have hne : r.rest.takeWhile Char.isDigit ≠ [] := by simp [hrest, hc]
    have hover : r.Over (r.rest.takeWhile Char.isDigit)
        ⟨r.taken ++ r.rest.takeWhile Char.isDigit, r.rest.dropWhile Char.isDigit⟩ := ⟨hsplit.symm, rfl⟩
    have hahead := h.ahead
    rw [← hsplit] at hahead
    rw [if_pos hd, Number.digits_eq_ok.mpr ⟨_, ⟨hne, hall⟩, hover, stops_dropWhile _ _⟩]
    exact ⟨(), _, hahead.skipWhile (fun c => Number.ascii_of_isDigit) hall (stops_dropWhile _ _),
      h.over hover fun c hc => Number.ascii_of_isDigit (hall c hc), trivial⟩
  · have hstop : Stops Char.isDigit r.rest := any_head_eq_false.mp (by simpa using hd)
    have hnil : r.rest.takeWhile Char.isDigit = [] := @takeWhile_append_stops _ [] _ (by simp) hstop
    have hdigits : digits r = .error (r, .missingDigit r.rest.head?) := by
      rw [digits, hnil]
    rw [if_neg hd, hdigits]
    exact h.expectedDigit

theorem Reads.skipOne (h : Reads s start l r) (ht : ∀ c, t c = true → c.toNat ≤ 127) :
    Steps s start (skipOne t) l (fun _ r' => r' = optional t r) (.ok (optional t r)) := by
  obtain ⟨v, hpeek, hv⟩ := h.peek_any ht
  refine .after hpeek ?_
  rw [hv]
  obtain ⟨u, ⟨rfl, hstop⟩ | ⟨c, rfl, hc⟩, hover⟩ := Number.optional_over (p := t) r
  · rw [any_head_eq_false.mpr hstop, Number.Reading.over_nil.mp hover]
    exact ⟨(), l, rfl, h, rfl⟩
  · have hahead := h.ahead
    have hascii : ∀ d ∈ [c], d.toNat ≤ 127 := by simpa using ht c hc
    rw [hover.1] at hahead ⊢
    rw [if_pos (by simpa using hc)]
    exact ⟨(), _, hahead.advance, h.over hover hascii, rfl⟩

theorem ascii_of_beq {d : Char} (hd : d.toNat ≤ 127) : ∀ c, (c == d) = true → c.toNat ≤ 127 := by
  intro c hc
  rwa [beq_iff_eq.mp hc]

/-- The whole part ends at a digit behind a zero. -/
theorem Reads.readWhole (h : Reads s start l r) : Steps s start readWhole l (fun _ _ => True) (whole r) := by
  by_cases hzero : r.rest.head? = some '0'
  · obtain ⟨rest, hrest⟩ := List.head?_eq_some_iff.mp hzero
    have hahead := h.ahead
    rw [hrest] at hahead
    have hover : r.Over ['0'] ⟨r.taken ++ ['0'], rest⟩ := ⟨hrest, rfl⟩
    have hreads := h.over hover (by simp)
    obtain ⟨v, hpeek, hv⟩ := hreads.peek_any fun c => Number.ascii_of_isDigit
    refine .after (hahead.peek_ascii (by decide)) ?_
    simp only [if_true]
    refine .after hahead.advance (.after hpeek ?_)
    rw [hv]
    by_cases hd : rest.head?.any Char.isDigit = true
    · obtain ⟨c, rest', hrest', hc⟩ := any_head.mp hd
      have hwhole : whole r = .error (⟨r.taken ++ ['0'], rest⟩, .digitAfterZero c) := by
        unfold whole
        rw [hrest]
        simp [hrest', hc]
      rw [if_pos hd, hwhole]
      exact hreads.shown (by rw [hrest']; rfl)
    · have hstop : Stops Char.isDigit rest := any_head_eq_false.mp (by simpa using hd)
      rw [if_neg hd, Number.whole_eq_ok.mpr ⟨['0'], Number.isWhole_zero, hover, hstop⟩]
      exact ⟨(), _, rfl, hreads, trivial⟩
  · rw [Number.whole_of_head? hzero]
    refine .of_eq ?_ h.readDigits
    have hview := any_head_view (ascii_of_beq (d := '0') (by decide)) r.rest
    have hnot : r.rest.head?.any (· == '0') = false := by
      cases hrest : r.rest with
      | nil => rfl
      | cons c rest =>
        rw [hrest] at hzero
        simpa using hzero
    rw [Lexer.readWhole, Lexer.readDigits, bind_ok h.ahead.peek, bind_ok h.ahead.peek]
    cases hv : (view r.rest).head? with
    | none => rfl
    | some d =>
      rw [hv, hnot] at hview
      have hd : d ≠ '0' := by simpa using hview
      simp only [if_neg hd, Option.any_some]

theorem isFloat_of_over (hover : r.Over part r') : isFloat r'.taken = (isFloat r.taken || isFloat part) := by
  rw [hover.2, Number.isFloat_append]

theorem Reads.readFraction (h : Reads s start l r) :
    Steps s start readFraction l (fun b r' => isFloat r'.taken = (isFloat r.taken || b)) (fraction r) := by
  obtain ⟨v, hpeek, hv⟩ := h.peek_any (ascii_of_beq (d := '.') (by decide))
  refine .after hpeek ?_
  rw [hv]
  by_cases hd : r.rest.head?.any (· == '.') = true
  · obtain ⟨c, rest, hrest, hc⟩ := any_head.mp hd
    obtain rfl : c = '.' := by simpa using hc
    have hahead := h.ahead
    rw [hrest] at hahead
    have hover : r.Over ['.'] ⟨r.taken ++ ['.'], rest⟩ := ⟨hrest, rfl⟩
    have hfraction : fraction r = digits ⟨r.taken ++ ['.'], rest⟩ := by
      unfold fraction
      rw [hrest]
      rfl
    rw [if_pos hd, hfraction]
    refine .after hahead.advance (.result (h.over hover (by simp)).readDigits fun r' hr' => ?_)
    obtain ⟨ds, -, hds, -⟩ := Number.digits_eq_ok.mp hr'
    rw [isFloat_of_over (hover.trans hds), Bool.or_true, Number.isFloat_append]
    simp [isFloat]
  · have hstop := any_head_eq_false.mp (by simpa using hd : r.rest.head?.any (· == '.') = false)
    have hfraction := Number.fraction_eq_ok.mpr
      ⟨[], Or.inl rfl, Number.Reading.over_nil.mpr rfl, by rwa [if_pos rfl]⟩
    rw [if_neg hd, hfraction]
    exact ⟨false, l, rfl, h, by simp⟩

theorem ascii_of_isExponentMark : ∀ c, isExponentMark c = true → c.toNat ≤ 127 := fun _ hc =>
  NameText.ascii_of_isPart (NameText.isPart_of_isStart (Number.isStart_mark hc))

theorem Reads.readExponent (h : Reads s start l r) :
    Steps s start readExponent l (fun b r' => isFloat r'.taken = (isFloat r.taken || b)) (exponent r) := by
  obtain ⟨v, hpeek, hv⟩ := h.peek_any ascii_of_isExponentMark
  refine .after hpeek ?_
  rw [hv]
  by_cases hd : r.rest.head?.any isExponentMark = true
  · obtain ⟨c, rest, hrest, hc⟩ := any_head.mp hd
    have hahead := h.ahead
    rw [hrest] at hahead
    have hover : r.Over [c] ⟨r.taken ++ [c], rest⟩ := ⟨hrest, rfl⟩
    have hexponent : exponent r =
        digits (optional (fun s => s == '+' || s == '-') ⟨r.taken ++ [c], rest⟩) := by
      unfold exponent
      rw [hrest]
      simp only [hc, if_true]
    rw [if_pos hd, hexponent]
    have hreads := h.over hover (by simpa using ascii_of_isExponentMark c hc)
    have hsign : ∀ c, (c == '+' || c == '-') = true → c.toNat ≤ 127 := fun c hc =>
      (Bool.or_eq_true _ _ ▸ hc).elim (ascii_of_beq (by decide) c) (ascii_of_beq (by decide) c)
    refine .after hahead.advance ((hreads.skipOne hsign).bind (g := digits) fun _ l' r' hreads' hr' => ?_)
    refine .result hreads'.readDigits fun r'' hr'' => ?_
    obtain ⟨sign, -, hsign⟩ := Number.optional_over (p := fun s => s == '+' || s == '-') ⟨r.taken ++ [c], rest⟩
    obtain ⟨ds, -, hds, -⟩ := Number.digits_eq_ok.mp hr''
    rw [hr'] at hds
    rw [isFloat_of_over (hover.trans (hsign.trans hds)), Bool.or_true, Number.isFloat_append]
    simp [isFloat, hc]
  · have hstop := any_head_eq_false.mp (by simpa using hd : r.rest.head?.any isExponentMark = false)
    have hexponent := Number.exponent_eq_ok.mpr
      ⟨[], Or.inl rfl, Number.Reading.over_nil.mpr rfl, by rwa [if_pos rfl]⟩
    rw [if_neg hd, hexponent]
    exact ⟨false, l, rfl, h, by simp⟩

/-- What must not follow a number is looked for. -/
theorem Reads.closeNumber (h : Reads s start l r) : Steps s start closeNumber l (fun _ r' => r' = r) (close r) := by
  have hascii : ∀ c, (c == '.' || NameText.isStart c) = true → c.toNat ≤ 127 := fun c hc => by
    rcases Bool.or_eq_true _ _ ▸ hc with hc | hc
    · exact ascii_of_beq (d := '.') (by decide) c hc
    · exact NameText.ascii_of_isPart (NameText.isPart_of_isStart hc)
  obtain ⟨v, hpeek, hv⟩ := h.peek_any hascii
  refine .after hpeek ?_
  rw [hv]
  by_cases hd : r.rest.head?.any (fun c => c == '.' || NameText.isStart c) = true
  · obtain ⟨c, rest, hrest, hc⟩ := any_head.mp hd
    have hclose : close r = .error (r, .runsInto c) := by
      unfold close
      rw [hrest]
      simp only [hc, if_true]
    rw [if_pos hd, hclose]
    exact h.shown (by rw [hrest]; rfl)
  · have hstop := any_head_eq_false.mp
      (by simpa using hd : r.rest.head?.any (fun c => c == '.' || NameText.isStart c) = false)
    rw [if_neg hd, Number.close_eq_ok.mpr ⟨rfl, hstop⟩]
    exact ⟨(), l, rfl, h, rfl⟩

/-- A number is read part by part. -/
theorem At.passNumber (h : l.At cs) :
    Steps l.source l.pos passNumber l (fun b r => b = isFloat r.taken) (Number.read cs) := by
  have hminus : ∀ c, (c == '-') = true → c.toNat ≤ 127 := ascii_of_beq (by decide)
  have hreads : Reads l.source l.pos l ⟨[], cs⟩ := ⟨rfl, h.text, h, rfl⟩
  have hread : Number.read cs = (.ok (optional (· == '-') ⟨[], cs⟩) : Step) >>= fun r₀ =>
      whole r₀ >>= fun r₁ => fraction r₁ >>= fun r₂ => exponent r₂ >>= close := by
    simp only [Number.read, bind_assoc]
    rfl
  rw [hread]
  refine (hreads.skipOne hminus).bind fun _ l₀ r₀ h₀ hr₀ => ?_
  have hwhole : Steps l.source l.pos Lexer.readWhole l₀ (fun _ r => isFloat r.taken = false) (whole r₀) :=
    h₀.readWhole.mono fun _ r hr _ => by
      obtain ⟨sign, hsign, hover⟩ := Number.optional_over (p := (· == '-')) ⟨[], cs⟩
      obtain ⟨ds, hds, hover', -⟩ := Number.whole_eq_ok.mp hr
      rw [← hr₀] at hover
      rw [isFloat_of_over (hover.trans hover'), Number.isFloat_append, Number.isFloat_of_isDigits hds.1]
      rcases hsign with ⟨rfl, -⟩ | ⟨c, rfl, hc⟩
      · rfl
      · rw [beq_iff_eq.mp hc]
        rfl
  refine hwhole.bind fun _ l₁ r₁ h₁ hr₁ => ?_
  refine h₁.readFraction.bind fun b₂ l₂ r₂ h₂ hr₂ => ?_
  refine h₂.readExponent.bind fun b₃ l₃ r₃ h₃ hr₃ => ?_
  refine .result h₃.closeNumber fun r₄ hr₄ => ?_
  rw [(Number.close_eq_ok.mp hr₄).1, hr₃, hr₂, hr₁, Bool.false_or]

/-- **A lexer reads a number as it is read from characters.** -/
theorem At.readNumber (h : l.At cs) :
    Gives l.source (Lexer.readNumber l) (match Number.read cs with
      | .ok r => .ok ⟨if isFloat r.taken then .float else .int, some (String.ofList r.taken),
          ⟨l.pos, l.pos + r.taken.length⟩⟩
      | .error (r, fault) => .error ⟨.malformedNumber fault, l.pos + r.taken.length⟩) := by
  have hsteps := h.passNumber
  cases hread : Number.read cs with
  | ok r =>
    rw [hread] at hsteps
    obtain ⟨b, l', hpass, hreads, rfl⟩ := hsteps
    obtain ⟨-, hnumber, -⟩ := Number.read_eq_ok_iff.mp hread
    have hlen := byteLength_eq_length (Number.ascii_of_isNumber hnumber)
    have hslice := sliceFrom_eq hreads.text (by rw [hreads.pos, hlen])
    refine ⟨l', ?_, hreads.source⟩
    rw [Lexer.readNumber, get_bind, bind_ok hpass, bind_ok hslice, get_bind, hreads.pos, pure_run]
  | error e =>
    obtain ⟨r, fault⟩ := e
    rw [hread] at hsteps
    obtain ⟨l', hpass, hs⟩ := hsteps
    exact ⟨l', bind_error hpass _, hs⟩

end Number

end QueryDocs.Lexer
