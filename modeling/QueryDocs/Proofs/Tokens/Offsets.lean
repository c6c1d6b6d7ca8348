import QueryDocs.Proofs.Grammar.Passes

/-! # Tokens at other offsets

What is read from a text does not depend on where the text stands, but for a byte-order mark, which
counts for nothing at the very start alone (`Scans.move`). Two texts with a line end between them
have the tokens of both (`Tokenizes.concat`), and tokens that stand side by side are those of the
stretch of text that they cover (`Scans.excerpt`). -/

namespace QueryDocs

open QueryDocs.Text

/-- From an offset on, all offsets are moved by the same distance. -/
def Translates (φ : Nat → Nat) (offset : Nat) : Prop := ∀ n, φ (offset + n) = φ offset + n

theorem Translates.add {φ : Nat → Nat} {offset : Nat} (h : Translates φ offset) (m : Nat) :
    Translates φ (offset + m) := fun n => by rw [Nat.add_assoc, h, h, Nat.add_assoc]

theorem translates_sub {k offset : Nat} (h : k ≤ offset) : Translates (· - k) offset :=
  fun _ => Nat.sub_add_comm h

/-! ### One token -/

section Scan
variable {φ : Nat → Nat} {offset start : Nat} {cs rest : List Char} {c : Char} {t : Token}

/-- **A token does not depend on where it stands.** -/
theorem scanToken_move (h : scanToken offset c cs = .ok (t, rest)) (hφ : Translates φ offset) :
    scanToken (φ offset) c cs = .ok (t.move φ, rest) := by
  obtain ⟨lex, rfl, hw, hspan, hp⟩ := scanToken_eq_ok_iff.mp h
  have hmoved : (t.move φ).span = ⟨φ offset, φ offset + byteLength (c :: lex)⟩ := by
    rw [Token.span_move, hspan, ← hφ]
    rfl
  exact scanToken_eq_ok_iff.mpr ⟨lex, rfl, hw, hmoved, hp⟩

/-- Trivia is passed over everywhere alike, but for a byte-order mark. -/
theorem skipTrivia_move {b : Bool} (h : skipTrivia b offset cs = (start, rest))
    (hφ : Translates φ offset) (hmark : cs.head? = some byteOrderMark → (φ offset = 0 ↔ offset = 0)) :
    skipTrivia b (φ offset) cs = (φ start, rest) := by
  -- behind its first character no text starts at the very start
  have hlater : ∀ {offset : Nat} {c : Char}, Translates φ offset →
      (φ (offset + c.utf8Size) = 0 ↔ offset + c.utf8Size = 0) := by
    intro offset c hφ
    have := c.utf8Size_pos
    rw [hφ]
    omega
  have hsame : ∀ {offset : Nat} {c : Char},
      (some c = some byteOrderMark → (φ offset = 0 ↔ offset = 0)) →
      (c == byteOrderMark && φ offset == 0) = (c == byteOrderMark && offset == 0) := by
    intro offset c h
    by_cases hc : c = byteOrderMark
    · subst hc
      simp [h rfl]
    · rw [beq_false_of_ne hc, Bool.false_and, Bool.false_and]
  fun_induction skipTrivia b offset cs with
  | case1 b offset =>
    cases h
    rfl
  | case2 offset c cs ih =>
    rw [skipTrivia, if_pos rfl, ← hφ]
    exact ih h (hφ.add _) fun _ => hlater hφ
  | case3 b offset cs hb ih =>
    rw [skipTrivia, if_neg hb, if_pos rfl, ← hφ]
    exact ih h (hφ.add _) fun _ => hlater (c := '#') hφ
  | case4 b offset c cs hb hn hi ih =>
    rw [skipTrivia, if_neg hb, if_neg hn, hsame hmark, if_pos hi, ← hφ]
    exact ih h (hφ.add _) fun _ => hlater hφ
  | case5 b offset c cs hb hn hi =>
    cases h
    rw [skipTrivia, if_neg hb, if_neg hn, hsame hmark, if_neg hi]

/-- The text at which trivia ends is no trivia. -/
theorem skipTrivia_again {b : Bool} (h : skipTrivia b offset cs = (start, c :: rest)) :
    skipTrivia false start (c :: rest) = (start, c :: rest) := by
  fun_induction skipTrivia b offset cs with
  | case1 => cases h
  | case5 b offset c cs hb hn hi =>
    cases h
    rw [skipTrivia, if_neg (by simp), if_neg hn, if_neg hi]
  | _ => exact (by assumption : _ → _) h

theorem scanToken_byteOrderMark {cs : List Char} (h : scanToken offset c cs = .ok (t, rest)) :
    c ≠ byteOrderMark := by
  rintro rfl
  cases h

/-- **The next token is the same wherever the text stands**, but for a byte-order mark at the start. -/
theorem scan_move (h : scan offset cs = .ok (t, rest)) (hφ : Translates φ offset)
    (hmark : cs.head? = some byteOrderMark → (φ offset = 0 ↔ offset = 0)) :
    scan (φ offset) cs = .ok (t.move φ, rest) := by
  unfold scan at h ⊢
  split at h
  · next start hskip =>
    cases h
    rw [skipTrivia_move hskip hφ hmark]
    rfl
  · next start c cs' hskip =>
    obtain ⟨gap, -, hstart, -⟩ := skipTrivia_append hskip
    rw [skipTrivia_move hskip hφ hmark]
    exact scanToken_move h (by rw [hstart]; exact hφ.add _)

/-- Nothing is left behind the end. -/
theorem rest_of_scan (h : scan offset cs = .ok (t, rest)) (he : t.isEnd = true) : rest = [] := by
  unfold scan at h
  split at h
  · cases h
    rfl
  · obtain ⟨lex, -, -, hv, -⟩ := scanToken_append h
    rw [Token.isEnd_eq_false_of_valid hv] at he
    cases he

/-- A token can be read from where it starts, without the gap before it. -/
theorem scan_of_gap (h : scan offset cs = .ok (t, rest)) (he : t.isEnd = false) :
    ∃ gap cs', cs = gap ++ cs' ∧ t.span.start = offset + byteLength gap ∧
      cs'.head? ≠ some byteOrderMark ∧ scan t.span.start cs' = .ok (t, rest) := by
  unfold scan at h
  split at h
  · cases h
    cases he
  · next start c cs' hskip =>
    obtain ⟨gap, hcs, hstart, -⟩ := skipTrivia_append hskip
    obtain ⟨lex, -, hspan, -⟩ := scanToken_append h
    have hmark : c ≠ byteOrderMark := scanToken_byteOrderMark h
    refine ⟨gap, c :: cs', hcs, by rw [hspan, hstart], by simpa using hmark, ?_⟩
    rw [hspan, scan, skipTrivia_again hskip]
    exact h

end Scan

/-! ### Runs of tokens -/

section Runs
variable {φ : Nat → Nat} {offset offset' : Nat} {cs rest k : List Char} {ts us : List Token}
  {t last : Token}

/-- **The tokens of a text are the same wherever it stands**, but for a byte-order mark at the
start. -/
theorem Scans.move (h : Scans offset cs ts offset' rest) (hφ : Translates φ offset)
    (hmark : cs.head? = some byteOrderMark → (φ offset = 0 ↔ offset = 0)) :
    Scans (φ offset) cs (ts.map (Token.move φ)) (φ offset') rest := by
  induction h with
  | nil => exact .nil _ _
  | @cons offset offset' cs rest rest' t ts h he hs ih =>
    obtain ⟨gap, lex, -, hlex, hspan, -⟩ := scan_resume h he
    have hpos := byteLength_pos hlex
    have hstop : t.span.stop = offset + (byteLength gap + byteLength lex) := by rw [hspan]; simp; omega
    refine .cons (scan_move h hφ hmark) he (ih (by rw [hstop]; exact hφ.add _) fun _ => ?_)
    rw [hstop, hφ]
    omega

theorem Scans.split (h : Scans offset cs (ts ++ us) offset' rest) :
    ∃ n cs', Scans offset cs ts n cs' ∧ Scans n cs' us offset' rest := by
  induction ts generalizing offset cs with
  | nil => exact ⟨offset, cs, .nil _ _, h⟩
  | cons t ts ih =>
    cases h with
    | cons h he hs =>
      obtain ⟨n, cs', h1, h2⟩ := ih hs
      exact ⟨n, cs', .cons h he h1, h2⟩

theorem Scans.stop (h : Scans offset cs ts offset' rest) : ∀ t ∈ ts.getLast?, t.span.stop = offset' := by
  induction h with
  | nil => simp
  | @cons offset offset' cs rest rest' t ts h he hs ih =>
    cases ts with
    | nil =>
      cases hs
      simp
    | cons u ts => simpa [List.getLast?_cons_cons] using ih

theorem Scans.start_le (h : Scans offset cs (t :: ts) offset' rest) :
    ∀ u ∈ t :: ts, t.span.start ≤ u.span.start ∧ u.span.start < u.span.stop := by
  obtain ⟨-, hin, hpairwise⟩ := h.spans
  intro u hu
  refine ⟨?_, (hin u hu).2.1⟩
  rcases List.mem_cons.mp hu with rfl | hu
  · exact le_refl _
  · have := (hin t List.mem_cons_self).2.1
    have := (List.pairwise_cons.mp hpairwise).1 u hu
    omega

theorem Tokenizes.move (h : Tokenizes offset cs ts last) (hφ : Translates φ offset)
    (hmark : cs.head? = some byteOrderMark → (φ offset = 0 ↔ offset = 0)) :
    Tokenizes (φ offset) cs (ts.map (Token.move φ)) (last.move φ) := by
  obtain ⟨offset', rest, hs, hlast, hend⟩ := h
  refine ⟨φ offset', rest, hs.move hφ hmark, ?_, hend⟩
  obtain ⟨u, rfl, rfl, -⟩ := hs.resume
  refine scan_move hlast (hφ.add _) fun hrest => ?_
  by_cases hu : u = []
  · subst hu
    exact hmark hrest
  · have := byteLength_pos hu
    rw [hφ]
    omega

/-- Behind a text and a line end a text is read as if it stood there alone. -/
theorem Tokenizes.scans_newline (h : Tokenizes offset cs ts last) (k : List Char) :
    ∃ n rest, Scans offset (cs ++ '\n' :: k) ts n rest ∧
      scan n rest = scan (offset + byteLength cs + 1) k := by
  obtain ⟨offset', rest, hs, hlast, hend⟩ := h
  obtain ⟨u, rfl, rfl, -, hprecedes, hresume⟩ := hs.resume
  obtain ⟨rfl, hbreak⟩ := scan_of_end hlast hend
  have hs' := hresume (rest ++ '\n' :: k) fun t ht => by
    cases rest with
    | nil => exact t.precedes_newline k
    | cons c cs => exact (hprecedes t ht).of_head rfl
  rw [byteLength_append, ← Nat.add_assoc, List.append_assoc]
  exact ⟨_, _, hs', hbreak k⟩

/-- **Tokens that are read one after the other are the tokens of the text that they cover.** -/
theorem Scans.excerpt (h : Scans offset cs (t :: ts) offset' rest) :
    ∃ gap u, cs = gap ++ u ++ rest ∧ t.span.start = offset + byteLength gap ∧
      offset' = t.span.start + byteLength u ∧
      Tokenizes 0 u ((t :: ts).map (Token.move (· - t.span.start))) (.endOfText (byteLength u)) := by
  cases h with
  | cons hscan he hs =>
    obtain ⟨gap, cs', rfl, hstart, hmark, hagain⟩ := scan_of_gap hscan he
    obtain ⟨u, rfl, hstop, hne, -, hresume⟩ := (Scans.cons hagain he hs).resume
    have hφ := translates_sub (le_refl t.span.start)
    obtain ⟨c, u, rfl⟩ := List.exists_cons_of_ne_nil (mt hne.mp (by simp))
    have hmoved := (hresume [] fun v _ => v.precedes_nil).move hφ fun hhead => by
      rw [List.append_nil] at hhead
      exact absurd hhead hmark
    rw [List.append_nil, hstop, Nat.sub_self, Nat.add_sub_cancel_left] at hmoved
    exact ⟨gap, c :: u, by simp, hstart, hstop, _, [], hmoved, rfl, rfl⟩

end Runs

end QueryDocs
