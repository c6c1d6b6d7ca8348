import QueryDocs.Proofs.RoundTrip

/-! # Where a syntax error shows

Reading fails at a token if no document starts with the tokens up to this one: it fails in the same
way whatever stands behind the token (`TokenStream.parse_unexpected`), and the tokens before it are
the start of a document (`Source.parse_before`). -/

namespace QueryDocs

open QueryDocs.Layout QueryDocs.Text
open Rule (DefinitionsRead)

/-! ### Streams -/

/-- Tokens are the start of definitions, with plain tokens behind them. -/
def CanGoOn (ts : List Token) : Prop :=
  Completable (fun xs ls => ∃ first, DefinitionsRead first xs ls) (ts.map Token.lexeme)

theorem Cursor.Before.head? {c : Cursor} {s : TokenStream} (h : c.Before s) :
    s.head? = some c.current := by
  cases h <;> rfl

theorem Token.move_id (t : Token) : t.move id = t := rfl

/-- **Reading fails at the first token that cannot stand at its place**: the tokens before it can go
on, and it fails there again on every stream with the same tokens up to this one. -/
theorem TokenStream.parse_unexpected {s : TokenStream} {e : Expectation} {t : Token}
    (hs : s.Proper) (h : s.parse = .error (.unexpected e t)) (n : Nat) :
    ∃ ts s', s = .prepend ts s' ∧ s'.head? = some t ∧ CanGoOn ts ∧
      ∀ s'', s''.head? = some t → (prepend ts s'').Proper → (prepend ts s'').length = n →
        (prepend ts s'').parse = .error (.unexpected e t) := by
  obtain ⟨c, hc, hr⟩ := exists_of_parse_unexpected h
  obtain ⟨hbefore, hlast⟩ := Cursor.before_of_advance hs hc
  have hreads : Rule.Reads id (n + 1) (Rule.definitions (s.length + 1)) (Rule.definitions (n + 1)) c _ :=
    Rule.reads_definitions monotone_id (hbefore.within hs)
  obtain ⟨ts, d, hp, rfl, ⟨w, xs, hw, hn⟩, hsame⟩ := hreads.unexpected hr
  obtain ⟨s', rfl, hd⟩ := hp.before hs hbefore
  refine ⟨ts, s', rfl, hd.head?, ⟨w, xs, hw, _, hn⟩, fun s'' hhead hproper hlen => ?_⟩
  have hne : ∀ e, s'' ≠ .broken e := by
    rintro e rfl
    cases hhead
  obtain ⟨c', hc'⟩ := Cursor.exists_advance (prepend_ne_broken hne ts) .startOfText 0
  obtain ⟨hbefore', hlast'⟩ := Cursor.before_of_advance hproper hc'
  obtain ⟨d', hp', hd'⟩ := hbefore'.passes hproper hne
  -- the second run is at the same places, as far as a rule can see
  have hcurrent : d'.current = d.current := Option.some.inj (hd'.head?.symm.trans hhead)
  have hstart : c.Moved id c' :=
    ⟨by rw [hp'.current, hp.current, hcurrent, Token.move_id], by rw [hlast', hlast, id]⟩
  have hstop : d.Moved id d' :=
    ⟨by rw [hcurrent, Token.move_id], by rw [hp'.lastStop, hp.lastStop, hlast', hlast, id]⟩
  have hmap : ts.map (Token.move id) = ts := List.map_id ts
  have hwithin := hbefore'.within hproper
  rw [hlen] at hwithin
  have hrun := hsame c' d' ⟨hwithin, hstart, by rwa [hmap], hstop⟩
  rw [Token.move_id, ← hlen] at hrun
  exact parse_error hc' hrun

/-! ### Texts -/

section Texts
variable {s s' : Source} {e : Expectation} {t : Token} {p : Position} {ts : List Token}

theorem Source.parse_eq_error {f : ParseFault} (h : s.parse = .error ⟨f, p⟩) :
    (TokenStream.ofSource s).parse = .error f ∧ p = s.locate f.span.start := by
  rw [Source.parse] at h
  split at h
  · cases h
  · next g hg =>
    cases h
    exact ⟨hg, rfl⟩

theorem Source.parse_congr (h : s'.chars = s.chars) : s'.parse = s.parse := by
  simp only [Source.parse, TokenStream.ofSource, Source.locate, h]

theorem Source.parse_unexpected (h : s.parse = .error ⟨.unexpected e t, p⟩) (n : Nat) :
    ∃ ts offset rest rest', Scans 0 s.chars ts offset rest ∧ scan offset rest = .ok (t, rest') ∧
      CanGoOn ts ∧ ∀ s'', s''.head? = some t → (TokenStream.prepend ts s'').Proper →
        (TokenStream.prepend ts s'').length = n →
          (TokenStream.prepend ts s'').parse = .error (.unexpected e t) := by
  obtain ⟨hstream, -⟩ := Source.parse_eq_error h
  obtain ⟨ts, s', hs, hhead, hgo, hsame⟩ :=
    TokenStream.parse_unexpected (TokenStream.proper_ofSource _) hstream n
  obtain ⟨offset, rest, limit, hscans, hl, rfl⟩ := scans_of_ofChars (Nat.lt_succ_self _) hs
  obtain ⟨rest', hscan⟩ := scan_of_head? hl hhead
  exact ⟨ts, offset, rest, rest', hscans, hscan, hgo, hsame⟩

theorem Source.slice?_of_parse (h : s.parse = .error ⟨.unexpected e t, p⟩) :
    ∃ text, s.slice? ⟨0, t.span.stop⟩ = some text := by
  obtain ⟨ts, offset, rest, rest', hs, hscan, -⟩ := Source.parse_unexpected h 0
  obtain ⟨u, hu, hoff, -⟩ := hs.resume
  cases he : t.isEnd with
  | true =>
    obtain ⟨rfl, -⟩ := scan_of_end hscan he
    refine ⟨s.body, Source.slice?_zero.mpr ⟨[], by simp [Source.chars], ?_⟩⟩
    change offset + byteLength rest = byteLength s.chars
    rw [hu, byteLength_append, hoff, Nat.zero_add]
  | false =>
    obtain ⟨gap, lex, rfl, -, hspan, -⟩ := scan_resume hscan he
    refine ⟨String.ofList (u ++ gap ++ lex), Source.slice?_zero.mpr ⟨rest', ?_, ?_⟩⟩
    · simp [hu]
    · simp [hspan, hoff, Nat.add_assoc]

theorem chars_eq_of_holds {offset : Nat} {rest rest' : List Char} {text : String}
    (hs : Scans 0 s.chars ts offset rest) (hscan : scan offset rest = .ok (t, rest'))
    (he : t.isEnd = true) (htext : s.slice? ⟨0, t.span.stop⟩ = some text)
    (htext' : s'.slice? ⟨0, t.span.stop⟩ = some text) (hholds : (TokenStream.ofSource s').Holds t) :
    s'.chars = s.chars := by
  have hsize : ∀ {x : Source} {us : List Token} {n : Nat} {cs cs' : List Char},
      Scans 0 x.chars us n cs → scan n cs = .ok (t, cs') → x.slice? ⟨0, t.span.stop⟩ = some text →
      x.chars = text.toList := by
    intro x us n cs cs' hx ht hslice
    obtain ⟨ht, -⟩ := scan_of_end ht he
    obtain ⟨u, hu, rfl, -⟩ := hx.resume
    obtain ⟨r, hr, hlen⟩ := Source.slice?_zero.mp hslice
    have hr : x.chars ++ [] = text.toList ++ r := by rwa [List.append_nil]
    refine (append_inj_of_byteLength hr ?_).1
    rw [← hlen, ht, hu, byteLength_append, Nat.zero_add]
    rfl
  obtain ⟨vs, n, cs, cs', hs', hscan'⟩ := scans_of_holds (Nat.lt_succ_self _) hholds
  exact (hsize hs' hscan' htext').trans (hsize hs hscan htext).symm

theorem stream_of_holds {offset : Nat} {rest rest' : List Char} {text : String}
    (hs : Scans 0 s.chars ts offset rest) (hscan : scan offset rest = .ok (t, rest'))
    (he : t.isEnd = false) (htext : s.slice? ⟨0, t.span.stop⟩ = some text)
    (htext' : s'.slice? ⟨0, t.span.stop⟩ = some text) (hholds : (TokenStream.ofSource s').Holds t) :
    (∃ s'', TokenStream.ofSource s' = .prepend ts s'' ∧ s''.head? = some t) ∧
      s'.locate t.span.start = s.locate t.span.start := by
  obtain ⟨r, hr, hlen⟩ := Source.slice?_zero.mp htext
  obtain ⟨k, hk, -⟩ := Source.slice?_zero.mp htext'
  obtain ⟨u, hu, rfl, -, hlast, hresume⟩ := hs.resume
  obtain ⟨gap, lex, rfl, hlex, hspan, -, -, -, hfirst, -⟩ := scan_resume hscan he
  have hcut : (u ++ gap ++ lex) ++ rest' = text.toList ++ r := by simp [← hr, hu]
  obtain ⟨htext, -⟩ :=
    append_inj_of_byteLength hcut (by rw [← hlen, hspan]; simp [Nat.add_assoc])
  have hchars : s'.chars = u ++ (gap ++ lex ++ k) := by simp [hk, ← htext]
  have hstart : t.span.start = byteLength (u ++ gap) := by simp [hspan]
  constructor
  · -- the tokens before are read again, and then this one
    have hs' := hresume (gap ++ lex ++ k) fun v hv => (hlast v hv).of_head (by
      cases gap with
      | nil =>
        obtain ⟨c, cs, rfl⟩ := List.exists_cons_of_ne_nil hlex
        rfl
      | cons c cs => rfl)
    rw [← hchars] at hs'
    obtain ⟨limit, hl, hstream⟩ := hs'.ofChars (Nat.lt_succ_self _)
    have hnot : t ∉ ts := by
      intro hmem
      have := hs.spans.2.1 t hmem
      rw [byteLength_append] at hstart
      omega
    refine ⟨_, hstream, head?_of_holds hl (hfirst k) ?_⟩
    rw [TokenStream.ofSource, hstream] at hholds
    exact (TokenStream.holds_prepend.mp hholds).resolve_left hnot
  · have hsame : ∀ {x : Source} {cs : List Char}, x.chars = u ++ (gap ++ lex ++ cs) →
        x.locate t.span.start = Position.after ⟨1, 1⟩ (byteLength (u ++ gap)) (u ++ gap) := by
      intro x cs hx
      rw [Source.locate, hstart, hx, ← List.append_assoc, ← List.append_assoc, List.append_assoc,
        Position.after_append]
    rw [hsame hchars, hsame hu]

/-- **Reading fails at the same token on every text that starts in the same way and has this token
there.** -/
theorem Source.parse_again {text : String} (h : s.parse = .error ⟨.unexpected e t, p⟩)
    (htext : s.slice? ⟨0, t.span.stop⟩ = some text)
    (htext' : s'.slice? ⟨0, t.span.stop⟩ = some text) (hholds : (TokenStream.ofSource s').Holds t) :
    s'.parse = .error ⟨.unexpected e t, p⟩ ∧ (t.isEnd = true → s'.body = s.body) := by
  obtain ⟨ts, offset, rest, rest', hs, hscan, -, hsame⟩ :=
    Source.parse_unexpected h (TokenStream.ofSource s').length
  cases he : t.isEnd with
  | true =>
    have hchars := chars_eq_of_holds hs hscan he htext htext' hholds
    exact ⟨(Source.parse_congr hchars).trans h, fun _ => String.toList_injective hchars⟩
  | false =>
    refine ⟨?_, fun h => by cases h⟩
    obtain ⟨⟨s'', hstream, hhead⟩, hplace⟩ := stream_of_holds hs hscan he htext htext' hholds
    have hproper : (TokenStream.ofSource s').Proper := TokenStream.proper_ofSource _
    rw [hstream] at hsame hproper
    have hparse := hsame s'' hhead hproper rfl
    rw [Source.parse, hstream, hparse, (Source.parse_eq_error h).2]
    simp only [ParseFault.span, hplace]

end Texts

/-! ### Going on -/

/-- Tokens with a blank behind each of them. -/
def spaced : List Lexeme → List Piece
  | [] => []
  | (_, some w) :: ls => .word w :: .blank " " :: spaced ls
  | (k, none) :: ls => .mark k :: .blank " " :: spaced ls

theorem Lexeme.isPlain_cases {l : Lexeme} (h : l.isPlain = true) :
    l.Valid ∧ ((∃ w, l = word w) ∨ ∃ k, l = mark k) := by
  obtain ⟨k, v⟩ := l
  rcases v with _ | w
  · have hk : k.isMark = true := by cases k <;> exact h
    exact ⟨by cases k <;> exact hk, Or.inr ⟨k, rfl⟩⟩
  · have hk : k = .name := by cases k <;> first | rfl | cases h
    subst hk
    refine ⟨?_, Or.inl ⟨w, rfl⟩⟩
    cases hw : w.toList with
    | nil => simp [isPlain, hw] at h
    | cons c cs =>
      simp only [isPlain, hw, Bool.and_eq_true] at h
      exact ⟨c, cs, hw, h.1, h.2⟩

theorem prints_spaced {ls : List Lexeme} (h : ls.all Lexeme.isPlain = true) :
    Prints (spaced ls) ls := by
  have hblank : ∀ {ps : List Piece} {ls : List Lexeme}, Prints ps ls →
      Prints (.blank " " :: ps) ls := fun hs => .ignored (by decide) (by decide) hs
  induction ls with
  | nil => exact .nil
  | cons l ls ih =>
    obtain ⟨hl, hls⟩ : l.isPlain = true ∧ ls.all Lexeme.isPlain = true := by simpa using h
    rcases (Lexeme.isPlain_cases hl).2 with ⟨w, rfl⟩ | ⟨k, rfl⟩
    · exact .word (hblank (ih hls)) trivial
    · exact .mark (hblank (ih hls))

theorem tokenizes_spaced {ls : List Lexeme} (h : ls.all Lexeme.isPlain = true) (offset : Nat) :
    ∃ ts last, Tokenizes offset (text (spaced ls)).toList ts last ∧ ts.map Token.lexeme = ls := by
  have hall : ∀ l ∈ ls, l.isPlain = true := List.all_eq_true.mp h
  obtain ⟨ts, last, hts, hls⟩ :=
    (prints_spaced h).tokenizes (fun l hl => (Lexeme.isPlain_cases (hall l hl)).1) offset
  refine ⟨ts, last, by rwa [text_toList], ?_⟩
  rw [hls, ← List.map_id ls, List.map_map]
  refine List.map_congr_left fun l hl => ?_
  rcases (Lexeme.isPlain_cases (hall l hl)).2 with ⟨w, rfl⟩ | ⟨k, rfl⟩
  · exact relabel_word _ w
  · exact relabel_mark _ k

theorem relabel_plain_true (l : Lexeme) : relabel (.plain fun _ => true) l = l := by
  obtain ⟨k, v⟩ := l
  rcases v with _ | v <;> cases k <;> rfl

section Texts
variable {s : Source} {e : Expectation} {t : Token} {p : Position} {ts : List Token}

theorem tokenizes_break {offset : Nat} {rest rest' : List Char} (hs : Scans 0 s.chars ts offset rest)
    (hscan : scan offset rest = .ok (t, rest')) :
    ∃ text, s.slice? ⟨0, t.span.start⟩ = some text ∧ ∀ {k : List Char} {us : List Token} {last : Token},
      Tokenizes (t.span.start + 1) k us last → Tokenizes 0 (text.toList ++ '\n' :: k) (ts ++ us) last := by
  obtain ⟨u, hu, rfl, -, hlast, hresume⟩ := hs.resume
  obtain ⟨gap, rest, rfl, hstart, hbreak⟩ := scan_break hscan
  refine ⟨String.ofList (u ++ gap), Source.slice?_zero.mpr ⟨rest, by simp [hu], by simp [hstart]⟩,
    fun {k us last} hk => ?_⟩
  have hs' := hresume (gap ++ '\n' :: k) fun v hv => by
    cases gap with
    | nil => exact v.precedes_newline k
    | cons c cs => exact (hlast v hv).of_head rfl
  rw [String.toList_ofList, List.append_assoc]
  obtain ⟨offset, rest, hk, hend⟩ := hk.of_scan_eq (hbreak k)
  exact ⟨offset, rest, hs'.append hk, hend⟩

/-- **The text before the token at which reading fails is the start of a document.** -/
theorem Source.parse_before (h : s.parse = .error ⟨.unexpected e t, p⟩) :
    ∃ text, s.slice? ⟨0, t.span.start⟩ = some text ∧
      ∃ rest, ∀ name, ∃ d, Source.parse ⟨text ++ "\n" ++ rest, name⟩ = .ok d := by
  obtain ⟨ts, offset, rest, rest', hs, hscan, ⟨w, xs, hw, first, ws, rfl, hls, hshaped, hapart, -⟩, -⟩ :=
    Source.parse_unexpected h 0
  obtain ⟨text, htext, hbreak⟩ := tokenizes_break hs hscan
  obtain ⟨us, last, hus, hwus⟩ := tokenizes_spaced hw (t.span.start + 1)
  obtain ⟨n, cs, hscans, hend, hlast⟩ := hbreak hus
  obtain ⟨rfl, -⟩ := scan_of_end hend hlast
  refine ⟨text, htext, Layout.text (spaced w), fun name => ?_⟩
  have hplain : PlainOf (.plain fun _ => true) (ws.flatMap Written.lexemes) (ts ++ us) := by
    rw [PlainOf, List.map_append, hwus, hls, List.map_congr_left fun l _ => relabel_plain_true l,
      List.map_id']
  have hstream : TokenStream.ofSource ⟨text ++ "\n" ++ Layout.text (spaced w), name⟩ = _ :=
    Tokenizes.ofSource ⟨n, cs, by simpa [Source.chars] using hscans, hend, hlast⟩
  obtain ⟨d, hd, -⟩ := parse_of_written hstream (TokenStream.proper_ofSource _) hplain
    (fun x hx => hshaped x.1 (List.mem_map_of_mem hx)) hapart
  exact ⟨d, Source.parse_of_stream hd⟩

/-- **A syntax error shows at the first token that no document can have at its place.** Every text
that starts in the same way and has this token there has the same error, which at the end of a text
is the same text; and the text before the token is the start of a document. -/
theorem Source.parse_error_first (h : s.parse = .error ⟨.unexpected e t, p⟩) :
    (∃ text, s.slice? ⟨0, t.span.stop⟩ = some text ∧
      ∀ s' : Source, s'.slice? ⟨0, t.span.stop⟩ = some text → (TokenStream.ofSource s').Holds t →
        s'.parse = .error ⟨.unexpected e t, p⟩ ∧ (t.isEnd = true → s'.body = s.body)) ∧
    ∃ text, s.slice? ⟨0, t.span.start⟩ = some text ∧
      ∃ rest, ∀ name, ∃ d, Source.parse ⟨text ++ "\n" ++ rest, name⟩ = .ok d := by
  obtain ⟨text, htext⟩ := Source.slice?_of_parse h
  exact ⟨⟨text, htext, fun s' hs' hholds => Source.parse_again h htext hs' hholds⟩,
    Source.parse_before h⟩

/-- A second bar in a row is wrong whatever stands behind it; a name could stand in its place. -/
theorem Source.parse_error_first_bar :
    Source.parse ⟨"union A = B | | C", none⟩ =
        .error ⟨.unexpected (.kind .name) ⟨.pipe, none, ⟨14, 15⟩⟩, ⟨1, 15⟩⟩ ∧
      ∃ rest, ∀ name, ∃ d, Source.parse ⟨"union A = B | " ++ "\n" ++ rest, name⟩ = .ok d := by
  have hparse : Source.parse ⟨"union A = B | |", none⟩ =
      .error ⟨.unexpected (.kind .name) ⟨.pipe, none, ⟨14, 15⟩⟩, ⟨1, 15⟩⟩ := by decide +kernel
  have htext : Source.slice? ⟨"union A = B | |", none⟩ ⟨0, 15⟩ = some "union A = B | |" :=
    by decide +kernel
  have htext' : Source.slice? ⟨"union A = B | | C", none⟩ ⟨0, 15⟩ = some "union A = B | |" :=
    by decide +kernel
  have hstart : Source.slice? ⟨"union A = B | |", none⟩ ⟨0, 14⟩ = some "union A = B | " :=
    by decide +kernel
  have hstream : TokenStream.ofSource ⟨"union A = B | | C", none⟩ =
      .prepend [⟨.name, some "union", ⟨0, 5⟩⟩, ⟨.name, some "A", ⟨6, 7⟩⟩, ⟨.equals, none, ⟨8, 9⟩⟩,
        ⟨.name, some "B", ⟨10, 11⟩⟩, ⟨.pipe, none, ⟨12, 13⟩⟩, ⟨.pipe, none, ⟨14, 15⟩⟩,
        ⟨.name, some "C", ⟨16, 17⟩⟩] (.finish (.endOfText 17)) := rfl
  obtain ⟨⟨text, h, hagain⟩, start, h', hrest⟩ := Source.parse_error_first hparse
  obtain rfl := Option.some.inj (htext.symm.trans h)
  obtain rfl := Option.some.inj (hstart.symm.trans h')
  refine ⟨(hagain _ htext' ?_).1, hrest⟩
  rw [hstream, TokenStream.holds_prepend]
  exact Or.inl (by simp)

end Texts

end QueryDocs
