import QueryDocs.Proofs.Lexer.Numbers
import QueryDocs.Proofs.Lexer.Strings
import QueryDocs.Proofs.Outcomes

/-! # Pulling tokens

A lexer reads the same token after a given one as `Source.next`, wherever an earlier call has left it
(`Lexer.next_gives`). In a source of fewer than 2³² bytes no call traps: no offset overflows, nothing is
cut out of the text but from one boundary between characters to another, and each loop comes to its end. -/

namespace QueryDocs

open QueryDocs.Text

namespace Lexer

section Here
variable {l : Lexer} {c d : Char} {cs rest : List Char} {m : Action Token} {x y : Except LexError Token}

theorem Gives.of_ok {s : Source} {t : Token} {l' : Lexer} (h : l'.source = s) :
    Gives s (.ok t l') (.ok t) := ⟨l', rfl, h⟩

theorem not_start_of_high (hc : 127 < c.toNat) : Token.Kind.ofChar? c = none ∧ c ≠ '.' ∧ c ≠ '"' ∧
    ¬ (c = '-' || c.isDigit) = true ∧ ¬ NameText.isStart c = true := by
  refine ⟨?_, ?_, ?_, ?_, ?_⟩
  · by_contra hmark
    obtain ⟨k, hk⟩ := Option.ne_none_iff_exists'.mp hmark
    have := Token.Kind.ascii_of_ofChar? hk
    omega
  · rintro rfl
    exact absurd hc (by decide)
  · rintro rfl
    exact absurd hc (by decide)
  · rw [Bool.or_eq_true, decide_eq_true_eq]
    rintro (rfl | h)
    · exact absurd hc (by decide)
    · have := Number.ascii_of_isDigit h
      omega
  · intro h
    have := NameText.ascii_of_isPart (NameText.isPart_of_isStart h)
    omega

/-- Two bytes behind the first one are told by the two characters there. -/
theorem At.sees_behind (h : l.At (c :: cs)) (hc : c.toNat ≤ 127) {ds : List Char}
    (hds : ∀ d ∈ ds, d.toNat ≤ 127) : Lexer.sees 1 ds l = .ok (ds.isPrefixOf cs) l :=
  @At.sees l [c] cs h (by simpa using hc) ds hds

theorem At.readSpread (h : l.At ('.' :: cs)) :
    Gives l.source (Lexer.readSpread l) ((scanToken l.pos '.' cs).map (·.1)) := by
  rw [Lexer.readSpread, get_bind, bind_ok (h.sees_behind (by decide) (by simp))]
  by_cases hdots : ['.', '.'] <+: cs
  · obtain ⟨cs, rfl⟩ := hdots
    have hmove : Lexer.advanceBy 3 l = .ok () (l.move 3) :=
      @At.advanceBy_ascii l ['.', '.', '.'] cs h (by simp)
    rw [if_pos (List.isPrefixOf_iff_prefix.mpr ⟨cs, rfl⟩), bind_ok hmove, get_bind, pure_run]
    exact .of_ok rfl
  · have hscan : scanToken l.pos '.' cs = .error ⟨.loneDot, l.pos⟩ := by
      have hno : ∀ rest, cs ≠ '.' :: '.' :: rest := by
        rintro rest rfl
        exact hdots ⟨rest, rfl⟩
      unfold scanToken
      simp only [show Token.Kind.ofChar? '.' = none from rfl, if_true]
    rw [if_neg (by rwa [List.isPrefixOf_iff_prefix]), hscan]
    exact ⟨l, rfl, rfl⟩

theorem At.readString (h : l.At ('"' :: cs)) :
    Gives l.source (Lexer.readString l) ((scanToken l.pos '"' cs).map (·.1)) := by
  rw [Lexer.readString, bind_ok (h.sees_behind (by decide) (by simp))]
  by_cases hquotes : ['"', '"'] <+: cs
  · obtain ⟨cs, rfl⟩ := hquotes
    have hscan : (scanToken l.pos '"' (['"', '"'] ++ cs)).map (·.1) =
        (Block.body l.pos [] (l.pos + 3) cs).map fun r =>
          ⟨.blockString, some (String.ofList (Block.value r.1)), ⟨l.pos, r.2.1⟩⟩ := by
      rw [List.cons_append, List.cons_append, List.nil_append, scanToken_fence]
      cases Block.body l.pos [] (l.pos + 3) cs <;> rfl
    rw [if_pos (List.isPrefixOf_iff_prefix.mpr ⟨cs, rfl⟩), hscan]
    exact @At.readBlock l cs h
  · have hscan : (scanToken l.pos '"' cs).map (·.1) = (Quoted.body l.pos [] (l.pos + 1) cs).map fun r =>
          ⟨.string, some (String.ofList r.1), ⟨l.pos, r.2.1⟩⟩ := by
      rw [scanToken_quote hquotes]
      cases Quoted.body l.pos [] (l.pos + 1) cs <;> rfl
    rw [if_neg (by rwa [List.isPrefixOf_iff_prefix]), hscan]
    exact h.readQuoted

theorem scanToken_of_none {offset : Nat} (hmark : Token.Kind.ofChar? c = none) (hdot : c ≠ '.')
    (hquote : c ≠ '"') (hnumber : ¬ (c = '-' || c.isDigit) = true) (hname : ¬ NameText.isStart c = true) :
    scanToken offset c cs = .error ⟨.unexpectedCharacter c, offset⟩ := by
  unfold scanToken
  simp only [hmark, if_neg hdot, if_neg hquote, if_neg hnumber, if_neg hname]

theorem At.readHere (h : l.At (c :: cs)) :
    Gives l.source (Lexer.readHere l) ((scanToken l.pos c cs).map (·.1)) := by
  by_cases hc : c.toNat ≤ 127
  · rw [Lexer.readHere, get_bind, bind_ok (h.peek_ascii hc)]
    simp only
    cases hmark : Token.Kind.ofChar? c with
    | some mark =>
      simp only [scanToken, hmark]
      rw [bind_ok h.advance, get_bind, pure_run]
      exact .of_ok rfl
    | none =>
      simp only
      by_cases hdot : c = '.'
      · subst hdot
        exact h.readSpread
      by_cases hquote : c = '"'
      · subst hquote
        exact h.readString
      rw [if_neg hdot, if_neg hquote]
      by_cases hnumber : (c = '-' || c.isDigit) = true
      · have hread := h.readNumber
        rw [if_pos hnumber]
        unfold scanToken
        simp only [hmark, if_neg hdot, if_neg hquote, if_pos hnumber]
        cases hr : Number.read (c :: cs) with
        | ok r =>
          rw [hr] at hread
          exact hread
        | error e =>
          rw [hr] at hread
          exact hread
      rw [if_neg hnumber]
      by_cases hname : NameText.isStart c = true
      · rw [if_pos hname, h.readName]
        unfold scanToken
        simp only [hmark, if_neg hdot, if_neg hquote, if_neg hnumber, if_pos hname]
        exact .of_ok rfl
      rw [if_neg hname, h.invalidCharacter, scanToken_of_none hmark hdot hquote hnumber hname]
      exact ⟨l, rfl, rfl⟩
  · obtain ⟨d, ds, hview, -, hhigh⟩ := head_view c cs
    obtain ⟨hmark, hdot, hquote, hnumber, hname⟩ := not_start_of_high (show 127 < c.toNat by omega)
    obtain ⟨hmark', hdot', hquote', hnumber', hname'⟩ := not_start_of_high (hhigh (by omega))
    rw [Lexer.readHere, get_bind, bind_ok h.peek, hview]
    simp only [List.head?_cons, hmark', if_neg hdot', if_neg hquote', if_neg hnumber', if_neg hname']
    rw [h.invalidCharacter, scanToken_of_none hmark hdot hquote hnumber hname]
    exact ⟨l, rfl, rfl⟩

theorem At.readToken (h : l.At cs) : Gives l.source (Lexer.readToken l) ((scan l.pos cs).map (·.1)) := by
  obtain ⟨offset, rest, hskip⟩ : ∃ offset rest, QueryDocs.skipTrivia false l.pos cs = (offset, rest) :=
    ⟨_, _, rfl⟩
  obtain ⟨l', hrun, rfl, hsource, hat⟩ := h.skipTrivia hskip
  rw [Lexer.readToken, bind_ok hrun, ← hsource, scan, hskip]
  cases rest with
  | nil =>
    rw [Lexer.readHere, get_bind, bind_ok hat.peek]
    exact .of_ok rfl
  | cons c rest => exact hat.readHere

end Here

/-! ### Places that are no boundaries -/

section Places
variable {l : Lexer} {cs : List Char} {n : Nat} {p : Token}

theorem lt_of_land_inside (h : land n cs = .inside) : 0 < n ∧ n < byteLength cs := by
  induction cs generalizing n with
  | nil =>
    rw [land] at h
    split_ifs at h
  | cons c cs ih =>
    rw [land] at h
    rw [byteLength_cons]
    split_ifs at h with hn hc
    · have := ih h
      omega
    · omega

theorem lt_of_land_beyond (h : land n cs = .beyond) : byteLength cs < n := by
  induction cs generalizing n with
  | nil =>
    rw [land] at h
    split_ifs at h with hn
    exact Nat.pos_of_ne_zero hn
  | cons c cs ih =>
    rw [land] at h
    split_ifs at h with hn hc
    · have := ih h
      rw [byteLength_cons]
      omega

theorem readToken_beyond (h : land l.pos l.source.chars = .beyond) :
    readToken l = .ok (.endOfText l.pos) l := by
  have hpeek : peek l = .ok none l := by
    have hlen := lt_of_land_beyond h
    change l.source.size < l.pos at hlen
    rw [← l.source.length_bytes] at hlen
    rw [peek, get_bind, List.getElem?_eq_none (by omega)]
    rfl
  have hstep : triviaStep () l = .ok (.inr ()) l := by
    rw [triviaStep, bind_ok hpeek]
    rfl
  have hskip : skipTrivia l = .ok () l := by
    rw [skipTrivia, repeating, get_bind]
    exact loop_done hstep
  rw [readToken, bind_ok hskip, readHere, get_bind, bind_ok hpeek]
  rfl

theorem readToken_inside (h : land l.pos l.source.chars = .inside) :
    readToken l = .error (.lexical ⟨.unexpectedCharacter '\ufffd', l.pos⟩) l := by
  obtain ⟨hpos, hlt⟩ := lt_of_land_inside h
  obtain ⟨b, hb⟩ : ∃ b, l.source.bytes[l.pos]? = some b := by
    change l.pos < l.source.size at hlt
    rw [← l.source.length_bytes] at hlt
    exact ⟨_, List.getElem?_eq_getElem hlt⟩
  have hhigh : 127 < (latin b).toNat := by
    rw [toNat_latin]
    by_contra hle
    obtain ⟨cs, before, hchars, hbefore⟩ := l.source.textFrom_of_byte hb (by omega)
    rw [hchars, hbefore, land_append] at h
    cases h
  have hpeek : peek l = .ok (some (latin b)) l := by
    rw [peek, get_bind, hb]
    rfl
  obtain ⟨hmark, hdot, hquote, hnumber, hname⟩ := not_start_of_high hhigh
  have hignored : isIgnored (latin b) = false := by
    rw [← Bool.not_eq_true]
    intro h
    have := ascii_of_isIgnored h
    omega
  have hhash : latin b ≠ '#' := by
    intro h
    rw [h] at hhigh
    exact absurd hhigh (by decide)
  have hstep : triviaStep () l = .ok (.inr ()) l := by
    rw [triviaStep, bind_ok hpeek]
    simp only [hignored, Bool.false_eq_true, if_false, if_neg hhash]
    rw [get_bind, if_neg (by omega), pure_run]
  have hskip : skipTrivia l = .ok () l := by
    rw [skipTrivia, repeating, get_bind]
    exact loop_done hstep
  have hchar : charAt l.pos l = .ok none l := by
    rw [charAt, get_bind, h]
    rfl
  rw [readToken, bind_ok hskip, readHere, get_bind, bind_ok hpeek]
  simp only [hmark, if_neg hdot, if_neg hquote, if_neg hnumber, if_neg hname]
  rw [invalidCharacter, bind_ok hchar]
  rfl

/-- **A call on a lexer gives the next token of its source**, wherever the lexer stands. -/
theorem next_gives (l : Lexer) (hsize : l.source.size < UInt32.size) (p : Token) :
    Gives l.source (next p l) (l.source.next p) := by
  rw [next, Source.next]
  cases hp : p.isEnd with
  | true => exact .of_ok rfl
  | false =>
    obtain ⟨l', rfl, hrun⟩ : ∃ l' : Lexer, l' = { l with pos := p.span.stop } ∧
        (modify (fun l : Lexer => { l with pos := p.span.stop }) : Action Unit) l = .ok () l' :=
      ⟨_, rfl, rfl⟩
    simp only [Bool.false_eq_true, if_false]
    rw [bind_ok hrun]
    cases hland : land p.span.stop l.source.chars with
    | boundary rest =>
      have hat : At { l with pos := p.span.stop } rest := ⟨land_eq_boundary hland, hsize⟩
      exact hat.readToken
    | inside =>
      rw [readToken_inside (l := { l with pos := p.span.stop }) hland]
      exact ⟨_, rfl, rfl⟩
    | beyond =>
      rw [readToken_beyond (l := { l with pos := p.span.stop }) hland]
      exact .of_ok rfl

end Places

/-! ### Calls -/

section Calls
variable {l : Lexer} {s : Source} {p t : Token}

theorem pull_eq (hsize : l.source.size < UInt32.size) (p : Token) :
    (l.pull p).1 = (l.source.next p).mapError .lexical ∧ (l.pull p).2.source = l.source := by
  have hgives := l.next_gives hsize p
  rw [pull]
  cases hnext : l.source.next p with
  | ok t =>
    rw [hnext] at hgives
    obtain ⟨l', hrun, hs⟩ := hgives
    rw [hrun]
    exact ⟨rfl, hs⟩
  | error e =>
    rw [hnext] at hgives
    obtain ⟨l', hrun, hs⟩ := hgives
    rw [hrun]
    exact ⟨rfl, hs⟩

theorem pulls_eq (hsize : l.source.size < UInt32.size) (ps : List Token) :
    l.pulls ps = ps.map fun p => (l.source.next p).mapError .lexical := by
  induction ps generalizing l with
  | nil => rfl
  | cons p ps ih =>
    obtain ⟨hresult, hsource⟩ := pull_eq hsize p
    rw [pulls, List.map_cons, hresult, ih (by rwa [hsource]), hsource]

end Calls

end Lexer

section Spans
variable {s : Source} {p t : Token} {l : Lexer}

theorem span_of_scan {offset : Nat} {cs rest : List Char} (h : scan offset cs = .ok (t, rest)) :
    t.span.start ≤ t.span.stop ∧ offset ≤ t.span.start := by
  cases he : t.isEnd with
  | true =>
    rw [(scan_of_end h he).1]
    exact ⟨le_rfl, Nat.le_add_right _ _⟩
  | false =>
    obtain ⟨gap, lex, -, -, hspan, -⟩ := scan_resume h he
    rw [hspan]
    exact ⟨Nat.le_add_right _ _, Nat.le_add_right _ _⟩

theorem Source.span_of_next (h : s.next p = .ok t) :
    t.span.start ≤ t.span.stop ∧ p.span.stop ≤ t.span.start ∧
      (p.isEnd = true → t.span.start = p.span.stop) := by
  rw [Source.next] at h
  cases hp : p.isEnd with
  | true =>
    rw [if_pos hp] at h
    cases h
    exact ⟨le_rfl, le_rfl, fun _ => rfl⟩
  | false =>
    rw [if_neg (by simp [hp])] at h
    split at h
    · obtain ⟨⟨u, rest⟩, hscan, rfl⟩ := map_eq_ok.mp h
      obtain ⟨hle, hstart⟩ := span_of_scan hscan
      exact ⟨hle, hstart, fun he => by cases he⟩
    · cases h
    · cases h
      exact ⟨le_rfl, le_rfl, fun he => by cases he⟩

/-- **Calls on a lexer are safe and do not depend on each other.** Whatever tokens are given in whatever
order, and wherever the lexer stands at first, no call traps. Each gives what a new lexer gives for the
same token, which is the next token of the source or a lexical error. A token that it gives stands behind
the one before it. -/
theorem Lexer.pulls_safe (l : Lexer) (hsize : l.source.size < UInt32.size) (ps : List Token) :
    List.Forall₂ (fun p r =>
      (∀ trap, r ≠ .error (.trap trap)) ∧ r = ((Lexer.ofSource l.source).pull p).1 ∧
        r = (l.source.next p).mapError .lexical ∧
        ∀ t, r = .ok t → t.span.start ≤ t.span.stop ∧ p.span.stop ≤ t.span.start ∧
          (p.isEnd = true → t.span.start = p.span.stop)) ps (l.pulls ps) := by
  rw [pulls_eq hsize, List.forall₂_map_right_iff, List.forall₂_same]
  intro p _
  refine ⟨fun trap h => ?_, ((Lexer.ofSource l.source).pull_eq hsize p).1.symm, rfl, fun t h => ?_⟩
  · cases hnext : l.source.next p <;> rw [hnext] at h <;> cases h
  · cases hnext : l.source.next p with
    | error e =>
      rw [hnext] at h
      cases h
    | ok u =>
      rw [hnext] at h
      cases h
      exact Source.span_of_next hnext

end Spans

/-- Calls behind an escape that is no character, from inside of a character, and from past the end. -/
theorem Lexer.pulls_safe_inside :
    let l : Lexer := ⟨⟨"\"é\\ud83d\" é", none⟩, 7⟩
    let ps : List Token := [.startOfText, ⟨.name, none, ⟨0, 2⟩⟩, ⟨.comment, none, ⟨3, 99⟩⟩]
    l.source.size < UInt32.size ∧ l.pulls ps = [.error (.lexical ⟨.unicodeEscape "\\ud83d", 3⟩),
      .error (.lexical ⟨.unexpectedCharacter '\ufffd', 2⟩), .ok (.endOfText 99)] := by
  intro l ps
  have hsize : l.source.size < UInt32.size := by decide
  have hnext : (ps.map fun p => (l.source.next p).mapError Halt.lexical) =
      [.error (.lexical ⟨.unicodeEscape "\\ud83d", 3⟩),
        .error (.lexical ⟨.unexpectedCharacter '\ufffd', 2⟩), .ok (.endOfText 99)] := by decide +kernel
  have hpulls : (ps.map fun p => (l.source.next p).mapError Halt.lexical) = l.pulls ps := by
    rw [← List.forall₂_eq_eq_eq, List.forall₂_map_left_iff]
    exact (Lexer.pulls_safe l hsize ps).imp fun p r h => h.2.2.1.symm
  exact ⟨hsize, hpulls.symm.trans hnext⟩

end QueryDocs
