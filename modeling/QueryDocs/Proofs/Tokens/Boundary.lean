import Mathlib.Data.List.TakeWhile
import Mathlib.Tactic.Common
import QueryDocs.Token.Scan

/-! # Where tokens end

A name and a number are read as far as they go, so what they are depends on the first character
behind them; an empty string would be taken for the opening quotes of a block string if a quote
followed. `Token.Precedes` says that a text does not continue a token in this way. -/

namespace QueryDocs

open QueryDocs.Text

theorem utf8Size_eq_one {c : Char} (h : c.toNat ≤ 127) : c.utf8Size = 1 := by
  have : c.val ≤ 127 := UInt32.le_iff_toNat_le.mpr h
  exact if_pos this

theorem byteLength_eq_length {cs : List Char} (h : ∀ c ∈ cs, c.toNat ≤ 127) :
    byteLength cs = cs.length := by
  induction cs with
  | nil => rfl
  | cons c cs ih =>
    rw [byteLength_cons, List.length_cons, utf8Size_eq_one (h c (by simp)),
      ih fun d hd => h d (by simp [hd])]
    omega

theorem byteLength_pos {cs : List Char} (h : cs ≠ []) : 0 < byteLength cs := by
  obtain ⟨c, cs, rfl⟩ := List.exists_cons_of_ne_nil h
  have := c.utf8Size_pos
  rw [byteLength_cons]
  omega

/-- Where a text is cut is told by the number of bytes before the cut. -/
theorem append_inj_of_byteLength {as as' bs bs' : List Char} (h : as ++ bs = as' ++ bs')
    (hl : byteLength as = byteLength as') : as = as' ∧ bs = bs' := by
  have hbs : Landing.boundary bs = .boundary bs' := by
    rw [← land_append as bs, ← land_append as' bs', h, hl]
  obtain rfl := Landing.boundary.inj hbs
  exact ⟨List.append_cancel_right h, rfl⟩

/-- The place after some bytes depends on these bytes alone. -/
theorem Position.after_append (p : Position) (as bs : List Char) :
    Position.after p (byteLength as) (as ++ bs) = Position.after p (byteLength as) as := by
  induction as generalizing p with
  | nil =>
    cases bs with
    | nil => rfl
    | cons b bs => simp [Position.after, b.utf8Size_pos]
  | cons a as ih =>
    have hlt : ¬ byteLength (a :: as) < a.utf8Size := by rw [byteLength_cons]; omega
    have hsub : byteLength (a :: as) - a.utf8Size = byteLength as := by rw [byteLength_cons]; omega
    rw [List.cons_append, Position.after, Position.after, if_neg hlt, if_neg hlt, hsub, ih, ih]

theorem takeBytes?_eq_some {n : Nat} {cs as : List Char} :
    takeBytes? n cs = some as ↔ ∃ bs, cs = as ++ bs ∧ n = byteLength as := by
  constructor
  · intro h
    induction cs generalizing n as with
    | nil =>
      rw [takeBytes?] at h
      split_ifs at h with hn
      cases h
      exact ⟨[], rfl, hn⟩
    | cons c cs ih =>
      rw [takeBytes?] at h
      split_ifs at h with hn hc
      · cases h
        exact ⟨c :: cs, rfl, hn⟩
      · obtain ⟨bs, hbs, rfl⟩ := Option.map_eq_some_iff.mp h
        obtain ⟨rest, rfl, hlen⟩ := ih hbs
        exact ⟨rest, rfl, by rw [byteLength_cons]; omega⟩
  · rintro ⟨bs, rfl, rfl⟩
    exact takeBytes?_append as bs

theorem land_eq_boundary {n : Nat} {cs rest : List Char} (h : land n cs = .boundary rest) :
    ∃ as, cs = as ++ rest ∧ n = byteLength as := by
  induction cs generalizing n with
  | nil =>
    rw [land] at h
    split_ifs at h with hn
    cases h
    exact ⟨[], rfl, hn⟩
  | cons c cs ih =>
    rw [land] at h
    split_ifs at h with hn hc
    · cases h
      exact ⟨[], rfl, hn⟩
    · obtain ⟨as, rfl, hlen⟩ := ih h
      exact ⟨c :: as, rfl, by rw [byteLength_cons]; omega⟩

/-- The characters of a text from an offset on. -/
def Source.TextFrom (s : Source) (offset : Nat) (cs : List Char) : Prop :=
  ∃ before, s.chars = before ++ cs ∧ offset = byteLength before

/-- An offset is one between two characters of a text, or at one of its ends. -/
def Source.IsBoundary (s : Source) (offset : Nat) : Prop := ∃ cs, s.TextFrom offset cs

section TextFrom
variable {s : Source} {offset : Nat} {as bs : List Char} {span : Span} {text : String}

theorem Source.textFrom_zero (s : Source) : s.TextFrom 0 s.chars := ⟨[], rfl, rfl⟩

theorem Source.TextFrom.append (h : s.TextFrom offset (as ++ bs)) :
    s.TextFrom (offset + byteLength as) bs := by
  obtain ⟨before, hs, rfl⟩ := h
  exact ⟨before ++ as, by rw [hs, List.append_assoc], (byteLength_append before as).symm⟩

theorem Source.TextFrom.slice (h : s.TextFrom offset (as ++ bs)) :
    s.slice? ⟨offset, offset + byteLength as⟩ = some (String.ofList as) := by
  obtain ⟨before, hs, rfl⟩ := h
  rw [slice?, if_neg (by simp), hs, land_append]
  simp only [Span.length, Nat.add_sub_cancel_left, takeBytes?_append, Option.map_some]

theorem Source.IsBoundary.le_size (h : s.IsBoundary offset) : offset ≤ s.size := by
  obtain ⟨cs, before, hs, rfl⟩ := h
  rw [Source.size, hs, byteLength_append]
  omega

theorem Source.textFrom_of_slice? (h : s.slice? span = some text) :
    ∃ behind, s.TextFrom span.start (text.toList ++ behind) ∧
      span.stop = span.start + byteLength text.toList := by
  rw [slice?] at h
  split_ifs at h with hlt
  split at h
  · next rest hland =>
    obtain ⟨as, htake, rfl⟩ := Option.map_eq_some_iff.mp h
    obtain ⟨before, hchars, hstart⟩ := land_eq_boundary hland
    obtain ⟨behind, rfl, hlen⟩ := takeBytes?_eq_some.mp htake
    rw [Span.length] at hlen
    rw [String.toList_ofList]
    exact ⟨behind, ⟨before, hchars, hstart⟩, by omega⟩
  · cases h

theorem Source.boundaries_of_slice? (h : s.slice? span = some text) :
    s.IsBoundary span.start ∧ s.IsBoundary span.stop := by
  obtain ⟨behind, hfrom, hstop⟩ := s.textFrom_of_slice? h
  rw [hstop]
  exact ⟨⟨_, hfrom⟩, _, hfrom.append⟩

end TextFrom

theorem Source.slice?_zero {s : Source} {n : Nat} {text : String} :
    s.slice? ⟨0, n⟩ = some text ↔
      ∃ rest, s.chars = text.toList ++ rest ∧ n = byteLength text.toList := by
  have hslice : s.slice? ⟨0, n⟩ = (takeBytes? n s.chars).map String.ofList := by
    cases hs : s.chars <;> simp [slice?, land, Span.length, hs]
  rw [hslice, Option.map_eq_some_iff]
  constructor
  · rintro ⟨as, h, rfl⟩
    rw [String.toList_ofList]
    exact takeBytes?_eq_some.mp h
  · intro h
    exact ⟨text.toList, takeBytes?_eq_some.mpr h, String.ofList_toList⟩

/-- A text does not start with a character of a class. -/
def Stops (p : Char → Bool) (cs : List Char) : Prop := ∀ c ∈ cs.head?, p c = false

@[simp] theorem stops_nil (p : Char → Bool) : Stops p [] := by simp [Stops]

@[simp] theorem stops_cons {p : Char → Bool} {c : Char} {cs : List Char} :
    Stops p (c :: cs) ↔ p c = false := by simp [Stops]

theorem Stops.mono {p q : Char → Bool} {cs : List Char} (h : Stops q cs)
    (hpq : ∀ c, p c = true → q c = true) : Stops p cs := by
  intro c hc
  by_contra hp
  have := hpq c (by simpa using hp)
  rw [h c hc] at this
  cases this

/-- Only the first character matters. -/
theorem Stops.of_head? {p : Char → Bool} {cs ds : List Char} (h : Stops p cs)
    (he : ds.head? = cs.head?) : Stops p ds := by
  unfold Stops at h ⊢
  rwa [he]

theorem stops_dropWhile (p : Char → Bool) (cs : List Char) : Stops p (cs.dropWhile p) := by
  intro c hc
  have := List.head?_dropWhile_not p cs
  rw [Option.mem_def.mp hc] at this
  simpa using this

theorem takeWhile_append_stops {p : Char → Bool} {as bs : List Char} (ha : ∀ a ∈ as, p a = true)
    (hb : Stops p bs) : (as ++ bs).takeWhile p = as := by
  rw [List.takeWhile_append_of_pos ha]
  cases bs with
  | nil => simp
  | cons b bs => simp [stops_cons.mp hb]

theorem dropWhile_append_stops {p : Char → Bool} {as bs : List Char} (ha : ∀ a ∈ as, p a = true)
    (hb : Stops p bs) : (as ++ bs).dropWhile p = bs := by
  rw [List.dropWhile_append_of_pos ha]
  cases bs with
  | nil => simp
  | cons b bs => simp [stops_cons.mp hb]

/-- Whether a character right behind a number would be taken for a part of it. -/
def Number.continues (c : Char) : Bool := c.isDigit || c == '.' || NameText.isStart c

/-- A text can stand right behind a token without changing it. -/
def Token.Precedes (t : Token) (cs : List Char) : Prop :=
  match t.kind with
  | .name => Stops NameText.isPart cs
  | .int | .float => Stops Number.continues cs
  | .string => t.value = some "" → Stops (· == '"') cs
  | _ => True

theorem Token.precedes_nil (t : Token) : t.Precedes [] := by
  unfold Token.Precedes
  split <;> simp

theorem Token.precedes_newline (t : Token) (cs : List Char) : t.Precedes ('\n' :: cs) := by
  unfold Token.Precedes
  split <;> simp <;> decide

theorem Token.Precedes.of_head {t : Token} {cs ds : List Char} (h : t.Precedes cs)
    (he : cs.head? = ds.head?) : t.Precedes ds := by
  unfold Token.Precedes Stops at *
  rw [← he]
  exact h

end QueryDocs
