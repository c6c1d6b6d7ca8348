import QueryDocs.Grammar.Cursor
import QueryDocs.Proofs.Document.Relabel
import QueryDocs.Proofs.Tokens.Stream

/-! # Places in a token stream

A cursor passes tokens when a rule takes them. How far it is from the end is the bound that the
repetitions of the grammar need; a cursor within a bound stays within it. Two streams whose tokens
differ in their offsets alone are passed alike. -/

namespace QueryDocs

/-- A token read at other offsets. -/
def Token.move (φ : Nat → Nat) (t : Token) : Token :=
  { t with span := relabel (.move φ) t.span }

section Token
variable (φ : Nat → Nat) (t : Token)

@[simp] theorem Token.kind_move : (t.move φ).kind = t.kind := rfl

@[simp] theorem Token.text_move : (t.move φ).text = t.text := rfl

@[simp] theorem Token.lexeme_move : (t.move φ).lexeme = t.lexeme := rfl

@[simp] theorem Token.isEnd_move : (t.move φ).isEnd = t.isEnd := rfl

@[simp] theorem Token.isWord_move (w : String) : (t.move φ).isWord w = t.isWord w := rfl

@[simp] theorem Token.span_move : (t.move φ).span = relabel (.move φ) t.span := rfl

end Token

namespace Cursor

/-- The number of tokens from the current one on, the end not counted. -/
def remaining (c : Cursor) : Nat := c.rest.length + if c.current.isEnd then 0 else 1

/-- The tokens ahead are of the form their class prescribes, and there are fewer of them than a
bound says. -/
structure Within (limit : Nat) (c : Cursor) : Prop where
  proper : c.rest.Proper
  valid : c.current.isEnd = false → c.current.lexeme.Valid
  bound : c.remaining < limit

/-- Tokens are taken one after the other. -/
inductive Passes : Cursor → List Token → Cursor → Prop where
  | nil (c : Cursor) : Passes c [] c
  | cons {c c' d : Cursor} {ts : List Token} (he : c.current.isEnd = false)
      (h : Rule.advance c = .ok ((), c')) (hs : Passes c' ts d) : Passes c (c.current :: ts) d

section Passes
variable {φ : Nat → Nat} {limit : Nat} {c c' d d' e : Cursor} {ts us : List Token}

theorem advance_eq_ok (h : Rule.advance c = .ok ((), d)) :
    (∃ last, c.rest = .finish last ∧ d = ⟨last, c.rest, c.current.span.stop⟩) ∨
      ∃ t rest, c.rest = .token t rest ∧ d = ⟨t, rest, c.current.span.stop⟩ := by
  obtain ⟨current, rest, lastStop⟩ := c
  cases rest with
  | finish last => cases h; exact Or.inl ⟨last, rfl, rfl⟩
  | broken e => cases h
  | token t rest => cases h; exact Or.inr ⟨t, rest, rfl, rfl⟩

theorem Passes.append (h : c.Passes ts d) (h' : d.Passes us e) : c.Passes (ts ++ us) e := by
  induction h with
  | nil => exact h'
  | cons he h _ ih => exact .cons he h (ih h')

theorem Passes.split (h : c.Passes (ts ++ us) e) : ∃ d, c.Passes ts d ∧ d.Passes us e := by
  induction ts generalizing c with
  | nil => exact ⟨c, .nil c, h⟩
  | cons t ts ih =>
    cases h with
    | cons he h hs =>
      obtain ⟨d, h1, h2⟩ := ih hs
      exact ⟨d, .cons he h h1, h2⟩

theorem Passes.current (h : c.Passes ts d) : c.current = ts.head?.getD d.current := by
  cases h <;> rfl

theorem Passes.lastStop (h : c.Passes ts d) :
    d.lastStop = (ts.getLast?.map (·.span.stop)).getD c.lastStop := by
  induction h with
  | nil => rfl
  | @cons c c' d ts he h hs ih =>
    have hc' : c'.lastStop = c.current.span.stop := by
      rcases advance_eq_ok h with ⟨_, -, rfl⟩ | ⟨_, _, -, rfl⟩ <;> rfl
    cases ts with
    | nil => cases hs; simpa using hc'
    | cons t ts =>
      rw [ih, List.getLast?_cons_cons, List.getLast?_eq_some_getLast (List.cons_ne_nil t ts)]
      rfl

/-! ### Bounds -/

theorem Within.mono {limit' : Nat} (h : c.Within limit) (hl : limit ≤ limit') :
    c.Within limit' := ⟨h.proper, h.valid, by have := h.bound; omega⟩

theorem within_advance (hc : c.Within limit) (he : c.current.isEnd = false)
    (h : Rule.advance c = .ok ((), d)) : d.Within limit ∧ d.remaining + 1 = c.remaining := by
  have hp := hc.proper
  have hb := hc.bound
  have hcount : c.remaining = c.rest.length + 1 := by simp [remaining, he]
  rcases advance_eq_ok h with ⟨last, hr, rfl⟩ | ⟨t, rest, hr, rfl⟩
  · rw [hr] at hp hcount
    have hl : last.isEnd = true := hp
    have hd : remaining ⟨last, c.rest, c.current.span.stop⟩ = 0 := by
      simp [remaining, hr, hl, TokenStream.length]
    rw [TokenStream.length] at hcount
    refine ⟨⟨hc.proper, fun h => ?_, by omega⟩, by omega⟩
    rw [show last.isEnd = false from h] at hl
    cases hl
  · rw [hr] at hp hcount
    obtain ⟨hv, hp⟩ := hp
    have ht : t.isEnd = false := Token.isEnd_eq_false_of_valid hv
    have hd : remaining ⟨t, rest, c.current.span.stop⟩ = rest.length + 1 := by
      simp [remaining, ht]
    rw [TokenStream.length] at hcount
    exact ⟨⟨hp, fun _ => hv, by omega⟩, by omega⟩

theorem Within.remaining_of_passes (hc : c.Within limit) (h : c.Passes ts d) :
    d.Within limit ∧ d.remaining + ts.length = c.remaining := by
  induction h with
  | nil => exact ⟨hc, rfl⟩
  | cons he h _ ih =>
    obtain ⟨hc', hcount⟩ := within_advance hc he h
    obtain ⟨hd, hcount'⟩ := ih hc'
    exact ⟨hd, by rw [List.length_cons]; omega⟩

theorem Within.passes (hc : c.Within limit) (h : c.Passes ts d) : d.Within limit :=
  (hc.remaining_of_passes h).1

theorem Within.pred (hc : c.Within (limit + 1)) (h : c.Passes ts d) (hne : ts ≠ []) :
    d.Within limit := by
  obtain ⟨hd, hcount⟩ := hc.remaining_of_passes h
  have hb := hc.bound
  have hpos := List.length_pos_iff.mpr hne
  exact ⟨hd.proper, hd.valid, by omega⟩

theorem Within.valid_of_passes (hc : c.Within limit) (h : c.Passes ts d) :
    ∀ t ∈ ts, t.lexeme.Valid := by
  induction h with
  | nil => simp
  | cons he h _ ih =>
    obtain ⟨hc', -⟩ := within_advance hc he h
    exact List.forall_mem_cons.mpr ⟨hc.valid he, ih hc'⟩

/-! ### Other offsets -/

/-- A cursor stands where another one does, up to the offsets. -/
def Moved (φ : Nat → Nat) (c c' : Cursor) : Prop :=
  c'.current = c.current.move φ ∧ c'.lastStop = φ c.lastStop

/-- Two cursors that pass the same tokens up to offsets, from places that are the same up to
offsets to such places, are at such places all the while. -/
theorem Moved.between (hc : Moved φ c c') (he : Moved φ e d')
    (h₁ : c.Passes ts d) (h₂ : d.Passes us e) {x : Cursor}
    (h₁' : c'.Passes (ts.map (Token.move φ)) x) (h₂' : x.Passes (us.map (Token.move φ)) d') :
    Moved φ d x := by
  constructor
  · rw [h₂'.current, h₂.current, he.1]
    cases us <;> rfl
  · rw [h₁'.lastStop, h₁.lastStop, hc.2]
    rw [List.getLast?_map]
    cases ts.getLast? <;> rfl

end Passes

end Cursor

end QueryDocs
