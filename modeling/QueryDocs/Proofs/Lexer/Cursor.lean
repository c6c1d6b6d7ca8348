import QueryDocs.Proofs.Tokens.Bytes

/-! # Steps of a lexer

What the single actions of a lexer do. Between two characters they are told by the text there
(`Lexer.At`). Inside of a character the bytes from there on tell them (`Lexer.Ahead`). In a source of fewer
than 2³² bytes none of them overflows, as no action looks further than one byte past the end. -/

namespace QueryDocs.Lexer

open QueryDocs.Text

section Results
variable {α β : Type} {l l' : Lexer} {m : Action α} {f : α → Action β} {a : α} {b b' : β} {h : Halt}
  {n : Nat} {step : β → Action (β ⊕ α)}

theorem bind_ok (hm : m l = .ok a l') (f : α → Action β) : (m >>= f) l = f a l' := by
  change EStateM.bind m f l = _
  rw [EStateM.bind, hm]

theorem bind_error (hm : m l = .error h l') (f : α → Action β) : (m >>= f) l = .error h l' := by
  change EStateM.bind m f l = _
  rw [EStateM.bind, hm]

theorem get_bind (f : Lexer → Action β) : (get >>= f) l = f l l := rfl

theorem pure_run : (pure a : Action α) l = .ok a l := rfl

theorem fail_run {fault : LexFault} : (fail fault n : Action α) l = .error (.lexical ⟨fault, n⟩) l := rfl

theorem loop_next (hs : step b l = .ok (.inl b') l') : loop step (n + 1) b l = loop step n b' l' := by
  rw [loop, bind_ok hs]

theorem loop_done (hs : step b l = .ok (.inr a) l') : loop step (n + 1) b l = .ok a l' := by
  rw [loop, bind_ok hs]
  rfl

theorem loop_error (hs : step b l = .error h l') : loop step (n + 1) b l = .error h l' := by
  rw [loop, bind_error hs]

end Results

/-- An action on a source ends with a result or a lexical error, and not in a trap. -/
def Gives {α : Type} (s : Source) (r : EStateM.Result Halt Lexer α) : Except LexError α → Prop
  | .ok a => ∃ l, r = .ok a l ∧ l.source = s
  | .error e => ∃ l, r = .error (.lexical e) l ∧ l.source = s

/-- The lexer some bytes further on. -/
def move (l : Lexer) (n : Nat) : Lexer := { l with pos := l.pos + n }

@[simp] theorem move_zero (l : Lexer) : l.move 0 = l := rfl

@[simp] theorem move_move (l : Lexer) (m n : Nat) : (l.move m).move n = l.move (m + n) := by
  simp [move, Nat.add_assoc]

@[simp] theorem move_pos (l : Lexer) (n : Nat) : (l.move n).pos = l.pos + n := rfl

@[simp] theorem move_source (l : Lexer) (n : Nat) : (l.move n).source = l.source := rfl

/-- These bytes are ahead of a lexer, in a source that is small enough. -/
structure Ahead (l : Lexer) (vs : List Char) : Prop where
  bytes : (l.source.bytes.drop l.pos).map latin = vs
  room : l.pos + vs.length = l.source.size
  small : l.source.size < UInt32.size

/-- A lexer stands before a text, in a source that is small enough. -/
structure At (l : Lexer) (cs : List Char) : Prop where
  text : l.source.TextFrom l.pos cs
  small : l.source.size < UInt32.size

/-! ### Bytes -/

section Ahead
variable {l : Lexer} {as vs : List Char} {n : Nat} {p : Char → Bool}

theorem Ahead.byte (h : l.Ahead vs) (n : Nat) : l.source.bytes[l.pos + n]?.map latin = vs[n]? := by
  rw [← h.bytes, List.getElem?_map, List.getElem?_drop]

theorem Ahead.move (h : l.Ahead (as ++ vs)) : (l.move as.length).Ahead vs := by
  obtain ⟨hbytes, hroom, hsmall⟩ := h
  refine ⟨?_, ?_, hsmall⟩
  · rw [move_source, move_pos, ← List.drop_drop, List.map_drop, hbytes, List.drop_left]
  · rw [List.length_append] at hroom
    rw [move_source, move_pos]
    omega

theorem ahead_eq (h : l.pos + n < UInt32.size) : ahead n l = .ok (l.pos + n) l := by
  rw [ahead, get_bind]
  simp only [if_pos h, pure_run]

theorem Ahead.peek (h : l.Ahead vs) : peek l = .ok vs.head? l := by
  have hbyte := h.byte 0
  rw [Nat.add_zero] at hbyte
  rw [Lexer.peek, get_bind, hbyte, ← List.head?_eq_getElem?, pure_run]

theorem Ahead.peekAt (h : l.Ahead vs) (hn : n ≤ vs.length) : peekAt n l = .ok vs[n]? l := by
  have hroom := h.room
  have hsmall := h.small
  rw [Lexer.peekAt, bind_ok (ahead_eq (by omega)), get_bind, h.byte, pure_run]

theorem Ahead.advanceBy (h : l.Ahead (as ++ vs)) : advanceBy as.length l = .ok () (l.move as.length) := by
  have hroom := h.room
  have hsmall := h.small
  rw [List.length_append] at hroom
  rw [Lexer.advanceBy, bind_ok (ahead_eq (by omega))]
  rfl

theorem Ahead.advance {v : Char} (h : l.Ahead (v :: vs)) : advance l = .ok () (l.move 1) :=
  @Ahead.advanceBy l [v] vs h

/-- Looking for bytes further on takes no look past the end of the text. -/
theorem Ahead.sees (h : l.Ahead vs) (hn : n ≤ vs.length) (as : List Char) :
    sees n as l = .ok (as.isPrefixOf (vs.drop n)) l := by
  induction as generalizing n with
  | nil => simp [Lexer.sees, pure_run]
  | cons a as ih =>
    rw [Lexer.sees, bind_ok (h.peekAt hn)]
    by_cases hlt : n < vs.length
    · rw [List.drop_eq_getElem_cons hlt, List.getElem?_eq_getElem hlt, List.isPrefixOf_cons_cons]
      by_cases ha : vs[n] = a
      · simp only [ha, beq_self_eq_true, if_true, ih (show n + 1 ≤ vs.length by omega), Bool.true_and]
      · have hsome : (some vs[n] == some a) = false := by simpa using ha
        have hne : (a == vs[n]) = false := by simpa using Ne.symm ha
        simp only [hsome, hne, Bool.false_eq_true, if_false, Bool.false_and, pure_run]
    · rw [List.getElem?_eq_none (by omega), List.drop_eq_nil_of_le (by omega)]
      rfl

/-- A loop passes over the bytes that it passes over one by one. -/
theorem Ahead.loop_pass {α β : Type} {step : β → Action (β ⊕ α)} {b : β} (h : l.Ahead (as ++ vs))
    (hstep : ∀ l v vs, l.Ahead (v :: vs) → v ∈ as → step b l = .ok (.inl b) (l.move 1)) (n : Nat) :
    loop step (n + as.length) b l = loop step n b (l.move as.length) := by
  induction as generalizing l with
  | nil => rfl
  | cons a as ih =>
    have hmoved : (l.move 1).Ahead (as ++ vs) := @Ahead.move l [a] (as ++ vs) h
    rw [List.length_cons, ← Nat.add_assoc, loop_next (hstep l a _ h List.mem_cons_self),
      ih hmoved fun l v vs hl hv => hstep l v vs hl (List.mem_cons_of_mem a hv), move_move,
      Nat.add_comm 1]

theorem Ahead.skipStep_pass {v : Char} (h : l.Ahead (v :: vs)) (hv : p v = true) :
    skipStep p () l = .ok (.inl ()) (l.move 1) := by
  rw [skipStep, bind_ok h.peek]
  simp only [List.head?_cons, hv, if_true]
  rw [bind_ok h.advance, pure_run]

theorem Ahead.skipStep_stop (h : l.Ahead vs) (hv : Stops p vs) : skipStep p () l = .ok (.inr ()) l := by
  rw [skipStep, bind_ok h.peek]
  cases vs with
  | nil => rfl
  | cons v vs =>
    simp only [List.head?_cons, stops_cons.mp hv, Bool.false_eq_true, if_false, pure_run]

theorem Ahead.skipWhile (h : l.Ahead (as ++ vs)) (has : ∀ a ∈ as, p a = true) (hvs : Stops p vs) :
    skipWhile p l = .ok () (l.move as.length) := by
  have hlen : l.source.bytes.length = l.pos + (as.length + vs.length) := by
    rw [l.source.length_bytes, ← h.room, List.length_append]
  rw [Lexer.skipWhile, repeating, get_bind, hlen,
    show l.pos + (as.length + vs.length) + 1 = (l.pos + vs.length + 1) + as.length by omega,
    h.loop_pass fun l v vs hl hv => hl.skipStep_pass (has v hv)]
  exact loop_done (h.move.skipStep_stop hvs)

end Ahead

/-! ### Characters -/

section At
variable {l : Lexer} {c d : Char} {as cs : List Char} {n : Nat} {p : Char → Bool}

theorem At.ahead (h : l.At cs) : l.Ahead (view cs) := by
  refine ⟨by rw [h.text.drop_bytes, view], ?_, h.small⟩
  rw [length_view, h.text.size_eq]

theorem At.move (h : l.At (as ++ cs)) : (l.move (byteLength as)).At cs := ⟨h.text.append, h.small⟩

theorem At.move_one (h : l.At (c :: cs)) (hc : c.toNat ≤ 127) : (l.move 1).At cs := by
  have hmoved := @At.move l [c] cs h
  rwa [byteLength_cons, utf8Size_eq_one hc, byteLength_nil] at hmoved

theorem At.move_ascii (h : l.At (as ++ cs)) (has : ∀ a ∈ as, a.toNat ≤ 127) :
    (l.move as.length).At cs := by
  rw [← byteLength_eq_length has]
  exact h.move

theorem At.peek (h : l.At cs) : peek l = .ok (view cs).head? l := h.ahead.peek

theorem At.peek_ascii (h : l.At (c :: cs)) (hc : c.toNat ≤ 127) : Lexer.peek l = .ok (some c) l := by
  rw [h.peek, view_cons, view_ascii hc]
  rfl

theorem At.advance (h : l.At (c :: cs)) : advance l = .ok () (l.move 1) := by
  obtain ⟨d, ds, hview, -⟩ := head_view c cs
  have hahead := h.ahead
  rw [hview] at hahead
  exact hahead.advance

theorem At.advanceBy (h : l.At (as ++ cs)) :
    advanceBy (byteLength as) l = .ok () (l.move (byteLength as)) := by
  have hahead := h.ahead
  rw [view_append] at hahead
  have hstep := hahead.advanceBy
  rwa [length_view] at hstep

theorem At.advanceBy_ascii (h : l.At (as ++ cs)) (has : ∀ a ∈ as, a.toNat ≤ 127) :
    Lexer.advanceBy as.length l = .ok () (l.move as.length) := by
  rw [← byteLength_eq_length has]
  exact h.advanceBy

/-- Given characters below 128 are seen where they stand, and nowhere else. -/
theorem At.sees (h : l.At (as ++ cs)) (has : ∀ a ∈ as, a.toNat ≤ 127) {ds : List Char}
    (hds : ∀ d ∈ ds, d.toNat ≤ 127) : sees as.length ds l = .ok (ds.isPrefixOf cs) l := by
  have hview : view (as ++ cs) = as ++ view cs := by rw [view_append, view_of_ascii has]
  rw [h.ahead.sees (by rw [hview, List.length_append]; omega), hview, List.drop_left]
  congr 1
  rw [Bool.eq_iff_iff, List.isPrefixOf_iff_prefix, List.isPrefixOf_iff_prefix, view_startsWith hds]

theorem At.sees_here (h : l.At cs) {ds : List Char} (hds : ∀ d ∈ ds, d.toNat ≤ 127) :
    Lexer.sees 0 ds l = .ok (ds.isPrefixOf cs) l :=
  @At.sees l [] cs h (by simp) ds hds

theorem At.charAt (h : l.At cs) : charAt l.pos l = .ok cs.head? l := by
  obtain ⟨before, hchars, hpos⟩ := h.text
  rw [Lexer.charAt, get_bind, hchars, hpos, land_append]
  rfl

theorem At.shownAt (h : l.At (c :: cs)) : shownAt l.pos l = .ok c l := by
  rw [Lexer.shownAt, bind_ok h.charAt]
  rfl

theorem At.invalidCharacter {α : Type} (h : l.At (c :: cs)) :
    (invalidCharacter l.pos : Action α) l = .error (.lexical ⟨.unexpectedCharacter c, l.pos⟩) l := by
  rw [Lexer.invalidCharacter, bind_ok h.charAt]
  rfl

/-- A loop passes over a character if it passes over each byte of it. -/
theorem At.loop_pass {α β : Type} {step : β → Action (β ⊕ α)} {b : β} (h : l.At (c :: cs))
    (hstep : ∀ l v vs, l.Ahead (v :: vs) → v ∈ view [c] → step b l = .ok (.inl b) (l.move 1))
    (hn : byteLength (c :: cs) < n) : (l.move c.utf8Size).At cs ∧ byteLength cs < n - c.utf8Size ∧
      loop step n b l = loop step (n - c.utf8Size) b (l.move c.utf8Size) := by
  have hlen : (view [c]).length = c.utf8Size := by
    rw [length_view, byteLength_cons, byteLength_nil, Nat.add_zero]
  have hahead := h.ahead
  rw [view_cons] at hahead
  rw [byteLength_cons] at hn
  refine ⟨@At.move l [c] cs h, by omega, ?_⟩
  have hloop := hahead.loop_pass hstep (n - c.utf8Size)
  rwa [hlen, Nat.sub_add_cancel (by omega)] at hloop

theorem sliceFrom_eq {start : Nat} (h : l.source.TextFrom start (as ++ cs))
    (hpos : l.pos = start + byteLength as) : sliceFrom start l = .ok (String.ofList as) l := by
  rw [sliceFrom, get_bind, hpos, h.slice]
  rfl

theorem restFrom_eq {start : Nat} (h : l.source.TextFrom start cs) : restFrom start l = .ok cs l := by
  obtain ⟨before, hchars, hpos⟩ := h
  rw [restFrom, get_bind, hchars, hpos, land_append]
  rfl

theorem any_head : cs.head?.any p = true ↔ ∃ c rest, cs = c :: rest ∧ p c = true := by
  cases cs <;> simp

theorem any_head_eq_false : cs.head?.any p = false ↔ Stops p cs := by
  cases cs <;> simp

/-- A condition that holds of characters below 128 alone can be checked on the next byte. -/
theorem any_head_view (hp : ∀ c, p c = true → c.toNat ≤ 127) (cs : List Char) :
    (view cs).head?.any p = cs.head?.any p := by
  cases cs with
  | nil => rfl
  | cons c cs =>
    obtain ⟨d, ds, hview, hlow, hhigh⟩ := head_view c cs
    rw [hview]
    change p d = p c
    by_cases hc : c.toNat ≤ 127
    · rw [hlow hc]
    · have hd : p d = false := by
        rw [← Bool.not_eq_true]
        intro h
        have := hp d h
        have := hhigh (by omega)
        omega
      have hc' : p c = false := by
        rw [← Bool.not_eq_true]
        exact fun h => hc (hp c h)
      rw [hd, hc']

theorem stops_view (hp : ∀ c, p c = true → c.toNat ≤ 127) (h : Stops p cs) : Stops p (view cs) := by
  rw [← any_head_eq_false] at h ⊢
  rw [any_head_view hp, h]

theorem At.skipWhile (h : l.At (as ++ cs)) (hp : ∀ c, p c = true → c.toNat ≤ 127)
    (has : ∀ a ∈ as, p a = true) (hcs : Stops p cs) : skipWhile p l = .ok () (l.move as.length) := by
  have hview : view (as ++ cs) = as ++ view cs := by
    rw [view_append, view_of_ascii fun a ha => hp a (has a ha)]
  have hahead := h.ahead
  rw [hview] at hahead
  exact hahead.skipWhile has (stops_view hp hcs)

end At

end QueryDocs.Lexer
