import QueryDocs.Proofs.Lexer.Cursor
import QueryDocs.Proofs.Tokens.Gaps

/-! # Trivia and names before a lexer

A lexer passes over blanks one by one, over a comment at once, and over a byte-order mark where the text
starts. It stops where `QueryDocs.skipTrivia` does (`Lexer.At.skipTrivia`). -/

namespace QueryDocs.Lexer

open QueryDocs.Text

section Trivia
variable {l : Lexer} {c : Char} {cs text gap rest : List Char} {last : Bool} {n : Nat}

theorem ascii_of_isIgnored (h : isIgnored c = true) : c.toNat ≤ 127 := by
  have hall : ∀ d ∈ [' ', '\t', '\r', '\n', ','], d.toNat ≤ 127 := by simp
  exact hall c (isIgnored_iff.mp h)

theorem ascii_of_isLineEnd (h : isLineEnd c = true) : c.toNat ≤ 127 :=
  ascii_of_isIgnored (by simp [isIgnored, h])

theorem view_mark : view [byteOrderMark] = ['\u00ef', '\u00bb', '\u00bf'] := by decide

/-- No token and no comment starts with trivia: what a lexer sees behind it. -/
def Starts (offset : Nat) (cs : List Char) : Prop :=
  ∀ c ∈ cs.head?, isIgnored c = false ∧ c ≠ '#' ∧ (c = byteOrderMark → offset ≠ 0)

theorem starts_of_skipTrivia {b : Bool} {offset start : Nat}
    (h : QueryDocs.skipTrivia b offset cs = (start, rest)) : Starts start rest := by
  rintro c hc
  obtain ⟨rest, rfl⟩ := List.head?_eq_some_iff.mp hc
  fun_induction QueryDocs.skipTrivia b offset cs with
  | case1 => cases h
  | case5 b offset d cs hb hn hi =>
    cases h
    simp only [Bool.or_eq_true, Bool.and_eq_true, beq_iff_eq, not_or, not_and, Bool.not_eq_true] at hi
    exact ⟨hi.1, hn, hi.2⟩
  | _ => exact (by assumption : _ → _) h

/-- A line of a text ends where a line of its bytes does. -/
theorem takeWhile_view (htext : ∀ c ∈ text, isLineEnd c = false) (hrest : Stops (fun c => !isLineEnd c) rest) :
    (view (text ++ rest)).takeWhile (fun c => !isLineEnd c) = view text := by
  have hview : ∀ v ∈ view text, (!isLineEnd v) = true := fun v hv => by
    rw [Bool.not_eq_true', ← Bool.not_eq_true]
    intro hlineEnd
    rcases mem_view hv with hv | hv
    · rw [htext v hv] at hlineEnd
      cases hlineEnd
    · have := ascii_of_isLineEnd hlineEnd
      omega
  have hstop : Stops (fun c => !isLineEnd c) (view rest) := by
    cases rest with
    | nil => exact stops_nil _
    | cons c rest =>
      have hc : isLineEnd c = true := by simpa using stops_cons.mp hrest
      rw [view_cons, view_ascii (ascii_of_isLineEnd hc), List.singleton_append]
      exact hrest
  rw [view_append, takeWhile_append_stops hview hstop]

theorem takeWhile_comment (htext : '\r' ∉ text ∧ '\n' ∉ text) (hrest : Stops (fun c => !isLineEnd c) rest) :
    (view ('#' :: text ++ rest)).takeWhile (fun c => !isLineEnd c) = view ('#' :: text) := by
  refine takeWhile_view ?_ hrest
  rintro c (_ | ⟨_, hc⟩)
  · rfl
  · exact isLineEnd_of_notMem htext c hc

theorem At.triviaStep_ignored (h : l.At (c :: cs)) (hc : isIgnored c = true) :
    triviaStep () l = .ok (.inl ()) (l.move 1) := by
  rw [triviaStep, bind_ok (h.peek_ascii (ascii_of_isIgnored hc))]
  simp only [hc, if_true]
  rw [bind_ok h.advance, pure_run]

theorem At.triviaStep_comment (h : l.At ('#' :: text ++ rest)) (htext : '\r' ∉ text ∧ '\n' ∉ text)
    (hrest : Stops (fun c => !isLineEnd c) rest) :
    triviaStep () l = .ok (.inl ()) (l.move (byteLength ('#' :: text))) := by
  have hahead := h.ahead
  have hbytes : bytesAhead l = .ok (view ('#' :: text ++ rest)) l := by
    have hpos : l.pos ≤ l.source.bytes.length := by
      rw [h.text.length_bytes]
      omega
    rw [bytesAhead, get_bind]
    simp only [if_pos hpos, hahead.bytes, pure_run]
  rw [triviaStep, bind_ok (h.peek_ascii (by decide))]
  simp only [show isIgnored '#' = false from rfl, Bool.false_eq_true, if_false, if_true]
  rw [bind_ok hbytes, takeWhile_comment htext hrest, length_view, bind_ok h.advanceBy, pure_run]

theorem At.triviaStep_mark (h : l.At (byteOrderMark :: cs)) (hpos : l.pos = 0) :
    triviaStep () l = .ok (.inl ()) (l.move 3) := by
  have hahead := h.ahead
  rw [view_cons, view_mark] at hahead
  have hsees : Lexer.sees 1 ['\u00bb', '\u00bf'] l = .ok true l := hahead.sees (by simp) _
  have hmove : Lexer.advanceBy 3 l = .ok () (l.move 3) := @At.advanceBy l [byteOrderMark] cs h
  rw [triviaStep, bind_ok hahead.peek]
  simp only [List.cons_append, List.head?_cons, show isIgnored '\u00ef' = false from rfl,
    Bool.false_eq_true, if_false, show ('\u00ef' : Char) ≠ '#' by decide]
  rw [get_bind]
  simp only [hpos, and_self, if_true]
  rw [bind_ok hsees]
  simp only [if_true]
  rw [bind_ok hmove, pure_run]

theorem At.triviaStep_stop (h : l.At cs) (hs : Starts l.pos cs) : triviaStep () l = .ok (.inr ()) l := by
  cases cs with
  | nil =>
    rw [triviaStep, bind_ok h.peek]
    rfl
  | cons c cs =>
    obtain ⟨hi, hhash, hmark⟩ := hs c rfl
    obtain ⟨d, ds, hview, hlow, hhigh⟩ := head_view c cs
    have hahead := h.ahead
    rw [hview] at hahead
    have hi' : isIgnored d = false := by
      by_cases hc : c.toNat ≤ 127
      · rw [hlow hc, hi]
      · rw [← Bool.not_eq_true]
        intro hd
        have := ascii_of_isIgnored hd
        have := hhigh (by omega)
        omega
    have hhash' : d ≠ '#' := by
      rintro rfl
      by_cases hc : c.toNat ≤ 127
      · exact hhash (hlow hc).symm
      · exact absurd (hhigh (by omega)) (by decide)
    rw [triviaStep, bind_ok hahead.peek]
    simp only [List.head?_cons, hi', Bool.false_eq_true, if_false, if_neg hhash']
    rw [get_bind]
    by_cases hd : d = '\u00ef' ∧ l.pos = 0
    · rw [if_pos hd, bind_ok (hahead.sees (n := 1) (by simp) _)]
      have hno : ['\u00bb', '\u00bf'].isPrefixOf ((d :: ds).drop 1) = false := by
        rw [← Bool.not_eq_true, List.isPrefixOf_iff_prefix]
        intro hstarts
        refine hmark (@eq_of_view_startsWith c byteOrderMark cs ?_) hd.2
        rw [view_mark, hview, hd.1]
        exact (List.prefix_cons_inj _).mpr hstarts
      simp only [hno, Bool.false_eq_true, if_false, pure_run]
    · rw [if_neg hd, pure_run]

/-- A gap is passed over in as many steps as it has characters, or fewer. -/
theorem At.loop_gap (hgap : IsGap last gap) (hlast : last = true → rest = []) (h : l.At (gap ++ rest))
    (hs : Starts (l.pos + byteLength gap) rest) (hn : byteLength gap < n) :
    loop triviaStep n () l = .ok () (l.move (byteLength gap)) := by
  induction hgap generalizing l n with
  | nil =>
    obtain ⟨n, rfl⟩ := Nat.exists_eq_succ_of_ne_zero (by omega : n ≠ 0)
    exact loop_done (h.triviaStep_stop hs)
  | @blank c gap hc hgap ih =>
    obtain ⟨n, rfl⟩ := Nat.exists_eq_succ_of_ne_zero (by omega : n ≠ 0)
    have hignored := isIgnored_iff.mpr hc
    have hascii := ascii_of_isIgnored hignored
    rw [byteLength_cons, utf8Size_eq_one hascii] at hs hn ⊢
    rw [loop_next (h.triviaStep_ignored hignored), ← move_move]
    exact ih (h.move_one hascii) (by rwa [move_pos, Nat.add_assoc]) (by omega)
  | @comment text c gap htext hc hgap ih =>
    obtain ⟨n, rfl⟩ : ∃ k, n = k + 2 := by
      rw [byteLength_cons, byteLength_append, byteLength_cons] at hn
      exact ⟨n - 2, by have := c.utf8Size_pos; have := ('#').utf8Size_pos; omega⟩
    have hignored : isIgnored c = true := by simp [isIgnored, isLineEnd_iff.mpr hc]
    have hascii := ascii_of_isIgnored hignored
    have hlen : byteLength ('#' :: (text ++ c :: gap)) = byteLength ('#' :: text) + (1 + byteLength gap) := by
      rw [byteLength_cons, byteLength_cons, byteLength_append, byteLength_cons, utf8Size_eq_one hascii,
        Nat.add_assoc]
    have hcomment : l.At ('#' :: text ++ (c :: (gap ++ rest))) := by simpa using h
    have hstop : Stops (fun c => !isLineEnd c) (c :: (gap ++ rest)) := by simp [isLineEnd_iff.mpr hc]
    have hbehind := hcomment.move
    have hpos : 0 < byteLength ('#' :: text) := byteLength_pos (by simp)
    rw [hlen] at hs hn ⊢
    rw [loop_next (hcomment.triviaStep_comment htext hstop),
      loop_next (hbehind.triviaStep_ignored hignored), ← move_move, ← move_move]
    refine ih (hbehind.move_one hascii) ?_ (by omega)
    simpa only [move_pos, Nat.add_assoc] using hs
  | @openComment text hopen htext =>
    obtain ⟨n, rfl⟩ : ∃ k, n = k + 2 := by
      rw [byteLength_cons] at hn
      exact ⟨n - 2, by have := ('#').utf8Size_pos; omega⟩
    obtain rfl := hlast hopen
    rw [loop_next (h.triviaStep_comment htext (stops_nil _))]
    exact loop_done (h.move.triviaStep_stop hs)

/-- **A lexer passes over what stands before a token.** -/
theorem At.skipTrivia {offset : Nat} (h : l.At cs)
    (hskip : QueryDocs.skipTrivia false l.pos cs = (offset, rest)) :
    ∃ l', Lexer.skipTrivia l = .ok () l' ∧ l'.pos = offset ∧ l'.source = l.source ∧ l'.At rest := by
  have hstarts := starts_of_skipTrivia hskip
  obtain ⟨gap, rfl, rfl, hgap⟩ := isTrivia_of_skipTrivia hskip
  refine ⟨l.move (byteLength gap), ?_, rfl, rfl, h.move⟩
  have hempty : rest.isEmpty = true → rest = [] := List.isEmpty_iff.mp
  have hroom := h.text.length_bytes
  rw [byteLength_append] at hroom
  rw [Lexer.skipTrivia, repeating, get_bind]
  rw [if_neg (by simp)] at hgap
  rcases hgap with hgap | ⟨hpos, gap, rfl, hgap⟩
  · exact h.loop_gap hgap hempty hstarts (by omega)
  · have hpos : l.pos = 0 := by simpa using hpos
    have hsize : byteLength (byteOrderMark :: gap) = 3 + byteLength gap := rfl
    have hmoved : (l.move 3).At (gap ++ rest) := @At.move l [byteOrderMark] _ h
    rw [hsize] at hroom hstarts ⊢
    rw [loop_next (h.triviaStep_mark hpos), ← move_move]
    exact hmoved.loop_gap hgap hempty (by rwa [move_pos, Nat.add_assoc]) (by omega)

theorem At.readName (h : l.At cs) :
    Lexer.readName l = .ok ⟨.name, some (String.ofList (NameText.split cs).1),
      ⟨l.pos, l.pos + (NameText.split cs).1.length⟩⟩ (l.move (NameText.split cs).1.length) := by
  have hname : ∀ c ∈ (NameText.split cs).1, NameText.isPart c = true := fun c hc =>
    List.mem_takeWhile_imp hc
  have hascii : ∀ c ∈ (NameText.split cs).1, c.toNat ≤ 127 := fun c hc =>
    NameText.ascii_of_isPart (hname c hc)
  have hstop : Stops NameText.isPart (NameText.split cs).2 := stops_dropWhile _ cs
  have hsplit : l.At ((NameText.split cs).1 ++ (NameText.split cs).2) := by
    rwa [NameText.split_append]
  have hslice : sliceFrom l.pos (l.move (NameText.split cs).1.length) =
      .ok (String.ofList (NameText.split cs).1) (l.move (NameText.split cs).1.length) :=
    sliceFrom_eq hsplit.text (by rw [move_pos, byteLength_eq_length hascii])
  rw [Lexer.readName, get_bind]
  rw [bind_ok (hsplit.skipWhile (fun c => NameText.ascii_of_isPart) hname hstop), bind_ok hslice, get_bind,
    pure_run, move_pos]

end Trivia

end QueryDocs.Lexer
