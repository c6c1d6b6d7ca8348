import QueryDocs.Proofs.Tokens.Gaps

/-! # Seams between texts

A text that ends at the end of a line is `Closed`: the tokens of a longer text that starts with it are its
own ones and those of the rest, whatever this is (`Tokenizes.closed`). A text can be cut in this way
before any line that does not start inside a string (`Tokenizes.cut`). -/

namespace QueryDocs

open QueryDocs.Text

/-- A text ends with a line end, if it is not empty. -/
def EndsLine (cs : List Char) : Prop := ∀ c ∈ cs.getLast?, c = '\n'

/-- A text at an offset gives some tokens whatever stands behind it, and this is read as if it stood there
alone. -/
def Closed (offset : Nat) (cs : List Char) (ts : List Token) : Prop :=
  ∀ k, ∃ n rest, Scans offset (cs ++ k) ts n rest ∧ scan n rest = scan (offset + byteLength cs) k

/-- A token denotes a text. -/
def Token.IsText (t : Token) : Prop := t.kind = .string ∨ t.kind = .blockString
deriving Decidable

section EndsLine
variable {c : Char} {as bs cs : List Char}

@[simp] theorem endsLine_nil : EndsLine [] := by simp [EndsLine]

theorem endsLine_of_getLast? (h : cs.getLast? = some '\n') : EndsLine cs := fun _ hc =>
  Option.some.inj (hc.symm.trans h)

theorem EndsLine.of_append (h : EndsLine (as ++ bs)) : EndsLine bs := by
  intro c hc
  refine h c ?_
  rw [Option.mem_def] at hc ⊢
  rw [List.getLast?_append, hc]
  rfl

theorem EndsLine.append (ha : EndsLine as) (hb : EndsLine bs) : EndsLine (as ++ bs) := by
  cases bs with
  | nil => rwa [List.append_nil]
  | cons b bs => simpa [EndsLine, List.getLast?_append] using hb

theorem EndsLine.newline_mem (h : EndsLine cs) (hne : cs ≠ []) : '\n' ∈ cs := by
  obtain ⟨c, hc⟩ : ∃ c, cs.getLast? = some c := by
    simpa [← List.getLast?_isSome, Option.isSome_iff_exists] using hne
  rw [h c hc] at hc
  exact List.mem_of_getLast? hc

end EndsLine

/-! ### Tokens and line ends -/

section Written
variable {t : Token} {lex : List Char}

/-- Only strings run over line ends. -/
theorem Lexeme.Written.isText (h : t.lexeme.Written lex) (hmem : '\n' ∈ lex) : t.IsText := by
  obtain ⟨l, span, rfl⟩ : ∃ (l : Lexeme) (span : Span), t = ⟨l.1, l.2, span⟩ :=
    ⟨t.lexeme, t.span, rfl⟩
  change l.Written lex at h
  cases h with
  | @mark c k h =>
    rw [← List.mem_singleton.mp hmem] at h
    cases h
  | spread => simp at hmem
  | string => exact Or.inl rfl
  | blockString => exact Or.inr rfl
  | number h => exact absurd (Number.chars_of_isNumber h '\n' hmem) (by decide)
  | name h =>
    obtain ⟨c, rest, rfl, hc, hrest⟩ := h
    rcases List.mem_cons.mp hmem with rfl | hmem
    · cases hc
    · cases List.all_eq_true.mp hrest '\n' hmem

theorem Lexeme.Written.getLast_string {l : Lexeme} (h : l.Written lex) (hkind : l.1 = .string) :
    lex.getLast? = some '"' := by
  cases h with
  | mark h =>
    have hmark := Token.Kind.isMark_of_ofChar? h
    obtain rfl : _ = Token.Kind.string := hkind
    cases hmark
  | spread => cases hkind
  | string => rw [← List.cons_append, List.getLast?_concat]
  | blockString => cases hkind
  | number => split at hkind <;> cases hkind
  | name => cases hkind

/-- Anything can stand behind a token that ends with a line end. -/
theorem Lexeme.Written.precedes (h : t.lexeme.Written lex) (hend : EndsLine lex) (k : List Char) :
    t.Precedes k := by
  rcases h.isText (hend.newline_mem h.ne_nil) with hkind | hkind
  · have hquote := hend '"' (h.getLast_string hkind)
    simp at hquote
  · simp [Token.Precedes, hkind]

end Written

/-! ### Trivia -/

section Trivia
variable {b : Bool} {offset start m : Nat} {c : Char} {as bs cs gap k rest : List Char}
  {ts us : List Token} {t last : Token}

/-- A text up to a line end is trivia, or a first token starts somewhere in it. -/
theorem skipTrivia_cut (has : EndsLine as) (hb : b = true → as ≠ []) :
    (∀ k, skipTrivia b offset (as ++ k) = skipTrivia false (offset + byteLength as) k) ∨
    ∃ gap c cs, as = gap ++ c :: cs ∧
      ∀ k, skipTrivia b offset (as ++ k) = (offset + byteLength gap, c :: (cs ++ k)) := by
  induction as generalizing b offset with
  | nil =>
    cases b with
    | true => exact absurd rfl (hb rfl)
    | false => exact Or.inl fun k => rfl
  | cons c cs ih =>
    have hcs : EndsLine cs := @EndsLine.of_append [c] cs has
    -- one character is passed over
    have hstep : ∀ b' : Bool, (b' = true → cs ≠ []) →
        (∀ k, skipTrivia b offset (c :: k) = skipTrivia b' (offset + c.utf8Size) k) →
        (∀ k, skipTrivia b offset (c :: cs ++ k) = skipTrivia false (offset + byteLength (c :: cs)) k) ∨
        ∃ gap d ds, c :: cs = gap ++ d :: ds ∧
          ∀ k, skipTrivia b offset (c :: cs ++ k) = (offset + byteLength gap, d :: (ds ++ k)) := by
      intro b' hb' hskip
      rcases @ih b' (offset + c.utf8Size) hcs hb' with hall | ⟨gap, d, ds, rfl, hall⟩
      · refine Or.inl fun k => ?_
        rw [List.cons_append, hskip, hall, byteLength_cons, Nat.add_assoc]
      · refine Or.inr ⟨c :: gap, d, ds, rfl, fun k => ?_⟩
        rw [List.cons_append, hskip, hall, byteLength_cons, Nat.add_assoc]
    have hnil : cs = [] → c = '\n' := fun h => has c (by rw [h]; rfl)
    cases b with
    | true =>
      refine hstep (!isLineEnd c) (fun hc h => ?_) fun k => by rw [skipTrivia, if_pos rfl]
      rw [hnil h] at hc
      cases hc
    | false =>
      by_cases hhash : c = '#'
      · subst hhash
        refine hstep true (fun _ h => absurd (hnil h) (by decide)) fun k => ?_
        rw [skipTrivia, if_neg (by simp), if_pos rfl]
        rfl
      · by_cases hpass : (isIgnored c || (c == byteOrderMark && offset == 0)) = true
        · refine hstep false (fun h => by cases h) fun k => ?_
          rw [skipTrivia, if_neg (by simp), if_neg hhash, if_pos hpass]
        · refine Or.inr ⟨[], c, cs, rfl, fun k => ?_⟩
          rw [List.cons_append, skipTrivia, if_neg (by simp), if_neg hhash, if_neg hpass]
          rfl

theorem scan_cut (has : EndsLine as) (offset : Nat) :
    (∀ k, scan offset (as ++ k) = scan (offset + byteLength as) k) ∨
    ∃ gap c cs, as = gap ++ c :: cs ∧
      ∀ k, scan offset (as ++ k) = scanToken (offset + byteLength gap) c (cs ++ k) := by
  rcases @skipTrivia_cut false offset as has (by simp) with hall | ⟨gap, c, cs, rfl, hall⟩
  · exact Or.inl fun k => by rw [scan, hall, scan]
  · exact Or.inr ⟨gap, c, cs, rfl, fun k => by rw [scan, hall]⟩

/-! ### Closed texts -/

theorem Closed.extend (h : Closed offset as ts) (hk : Tokenizes (offset + byteLength as) k us last) :
    Tokenizes offset (as ++ k) (ts ++ us) last := by
  obtain ⟨n, rest, hs, hscan⟩ := h k
  obtain ⟨offset', rest', hs', hend⟩ := hk.of_scan_eq hscan
  exact ⟨offset', rest', hs.append hs', hend⟩

theorem Closed.append (has : Closed offset as ts) (hbs : Closed (offset + byteLength as) bs us) :
    Closed offset (as ++ bs) (ts ++ us) := by
  intro k
  obtain ⟨n, rest, hs, hscan⟩ := has (bs ++ k)
  obtain ⟨n', rest', hs', hscan'⟩ := hbs k
  rw [byteLength_append, ← Nat.add_assoc, List.append_assoc, ← hscan']
  cases hs' with
  | nil => exact ⟨n, rest, by rwa [List.append_nil], hscan⟩
  | cons h he hs' => exact ⟨n', rest', hs.append (.cons (hscan.trans h) he hs'), rfl⟩

theorem Closed.tokenizes (h : Closed offset as ts) :
    Tokenizes offset as ts (.endOfText (offset + byteLength as)) := by
  have hall := h.extend (k := []) ⟨_, [], .nil _ _, rfl, rfl⟩
  rwa [List.append_nil, List.append_nil] at hall

/-- A token that starts before a line and is no string over its start ends before the line, and is read
there in front of any other line. -/
theorem exists_scan_before_cut (has : EndsLine (gap ++ c :: cs))
    (hall : ∀ k, scan offset (gap ++ c :: cs ++ k) = scanToken (offset + byteLength gap) c (cs ++ k))
    (h : scan offset (gap ++ c :: cs ++ bs) = .ok (t, rest))
    (hcut : t.IsText → t.span.stop ≤ offset + byteLength (gap ++ c :: cs) ∨
      offset + byteLength (gap ++ c :: cs) ≤ t.span.start) :
    ∃ as, rest = as ++ bs ∧ EndsLine as ∧
      offset + byteLength (gap ++ c :: cs) = t.span.stop + byteLength as ∧
      t.span.start < offset + byteLength (gap ++ c :: cs) ∧
      ∀ k, scan offset (gap ++ c :: cs ++ k) = .ok (t, as ++ k) := by
  rw [hall] at h
  obtain ⟨lex, hlex, hw, hspan, hp⟩ := scanToken_eq_ok_iff.mp h
  have hstart : t.span.start = offset + byteLength gap := by rw [hspan]
  have hstop : t.span.stop = offset + byteLength gap + (c.utf8Size + byteLength lex) := by
    rw [hspan, byteLength_cons]
  have hlength : byteLength (gap ++ c :: cs) = byteLength gap + (c.utf8Size + byteLength cs) := by simp
  have hc := c.utf8Size_pos
  rw [hlength] at hcut ⊢
  -- a token that runs over the cut would contain the line end before it
  obtain ⟨as, rfl, rfl⟩ : ∃ as, cs = lex ++ as ∧ rest = as ++ bs := by
    rcases List.append_eq_append_iff.mp hlex with ⟨more, rfl, rfl⟩ | hinside
    · by_cases hmore : more = []
      · subst hmore
        exact ⟨[], by simp, by simp⟩
      · have hpos := byteLength_pos hmore
        have hend : '\n' ∈ c :: cs := (has.of_append).newline_mem (by simp)
        have := hcut (hw.isText (List.mem_append_left more hend))
        rw [byteLength_append] at hstop
        omega
    · exact hinside
  refine ⟨as, rfl, @EndsLine.of_append (gap ++ c :: lex) as (by simpa using has), ?_, by omega, fun k => ?_⟩
  · rw [byteLength_append]
    omega
  · have hp' : t.Precedes (as ++ k) := by
      cases as with
      | nil => exact hw.precedes (by simpa using has.of_append) _
      | cons d ds => exact hp.of_head rfl
    rw [hall, List.append_assoc]
    exact scanToken_of_written hw hspan hp'

/-- **A text can be cut before a line that starts in no string**: what stands before is closed, and the
rest has the other tokens. -/
theorem Tokenizes.cut (h : Tokenizes offset (as ++ bs) ts last) (has : EndsLine as)
    (hm : m = offset + byteLength as)
    (hcut : ∀ t ∈ ts, t.IsText → t.span.stop ≤ m ∨ m ≤ t.span.start) :
    ∃ us vs, ts = us ++ vs ∧ Closed offset as us ∧ Tokenizes m bs vs last ∧
      (∀ t ∈ us, t.span.start < m) ∧ ∀ t ∈ vs, m ≤ t.span.start := by
  induction ts generalizing offset as with
  | nil =>
    rcases scan_cut has offset with hall | ⟨gap, c, cs, rfl, hall⟩
    · exact ⟨[], [], rfl, fun k => ⟨_, _, .nil _ _, hall k⟩,
        by rw [hm]; exact h.of_scan_eq (hall bs).symm, by simp, by simp⟩
    · obtain ⟨_, _, hs, hlast, hend⟩ := h
      cases hs
      rw [hall] at hlast
      obtain ⟨lex, -, -, hv, -⟩ := scanToken_append hlast
      rw [Token.isEnd_eq_false_of_valid hv] at hend
      cases hend
  | cons t ts ih =>
    rcases scan_cut has offset with hall | ⟨gap, c, cs, rfl, hall⟩
    · have hbs : Tokenizes m bs (t :: ts) last := by rw [hm]; exact h.of_scan_eq (hall bs).symm
      obtain ⟨_, _, hs, -⟩ := id hbs
      exact ⟨[], t :: ts, rfl, fun k => ⟨_, _, .nil _ _, hall k⟩, hbs, by simp,
        fun u hu => (hs.spans.2.1 u hu).1⟩
    · obtain ⟨offset', rest', hs, hlast, hend⟩ := h
      cases hs with
      | @cons _ _ _ rest _ _ _ hscan he hs =>
        obtain ⟨as', rfl, has', hm', hstart, hagain⟩ := exists_scan_before_cut has hall hscan fun htext => by
          rw [← hm]
          exact hcut t List.mem_cons_self htext
        rw [← hm] at hm' hstart
        obtain ⟨us, vs, rfl, hclosed, hvs, hus, hstarts⟩ :=
          ih ⟨offset', rest', hs, hlast, hend⟩ has' hm' fun u hu => hcut u (List.mem_cons_of_mem t hu)
        refine ⟨t :: us, vs, rfl, fun k => ?_, hvs, List.forall_mem_cons.mpr ⟨hstart, hus⟩, hstarts⟩
        obtain ⟨n, rest, hs', hscan'⟩ := hclosed k
        exact ⟨n, rest, .cons (hagain k) he hs', by rw [hscan', ← hm', hm]⟩

theorem Tokenizes.eq_nil (h : Tokenizes offset [] ts last) : ts = [] := by
  obtain ⟨_, _, hs, -⟩ := h
  cases hs with
  | nil => rfl
  | cons hscan he _ =>
    cases hscan
    cases he

/-- **A text that ends with a line end is closed.** -/
theorem Tokenizes.closed (h : Tokenizes offset as ts last) (has : EndsLine as) :
    Closed offset as ts := by
  have hin : ∀ t ∈ ts, t.span.stop ≤ offset + byteLength as := fun t ht => by
    obtain ⟨offset', rest, hs, -⟩ := h
    obtain ⟨u, rfl, rfl, -⟩ := hs.resume
    have := (hs.spans.2.1 t ht).2.2
    rw [byteLength_append]
    omega
  rw [← List.append_nil as] at h
  obtain ⟨us, vs, rfl, hclosed, hvs, -⟩ := h.cut has rfl fun t ht _ => Or.inl (hin t ht)
  obtain rfl := hvs.eq_nil
  rwa [List.append_nil]

theorem Tokenizes.closed_newline (h : Tokenizes offset as ts last) :
    Closed offset (as ++ ['\n']) ts := by
  intro k
  rw [byteLength_append, ← Nat.add_assoc, List.append_assoc]
  exact h.scans_newline k

/-! ### Other offsets -/

/-- A text has the same lexemes wherever it stands, but for a byte-order mark at the start. -/
theorem Tokenizes.exists_at {n : Nat} (h : Tokenizes m cs ts last)
    (hmark : cs.head? = some byteOrderMark → (n = 0 ↔ m = 0)) :
    ∃ us last', Tokenizes n cs us last' ∧ us.map Token.lexeme = ts.map Token.lexeme := by
  have hφ : Translates (fun x => n + (x - m)) m := fun k => by
    dsimp only
    omega
  have hmoved := h.move hφ (by simpa using hmark)
  rw [Nat.sub_self, Nat.add_zero] at hmoved
  refine ⟨_, _, hmoved, ?_⟩
  rw [List.map_map]
  rfl

end Trivia

end QueryDocs
