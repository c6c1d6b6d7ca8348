import QueryDocs.Proofs.Lexer.Trivia
import QueryDocs.Proofs.Tokens.Block
import QueryDocs.Proofs.Tokens.Quoted

/-! # Strings before a lexer

A lexer goes on byte by byte within a string and cuts out what stands between two escapes. What it has put
together up to some place, with the text since the last cut, is what the string denotes up to there
(`Collects`). -/

namespace QueryDocs.Lexer

open QueryDocs.Text
open Quoted (hex4? letter? isHighSurrogate isLowSurrogate)

/-! ### Escapes by code point -/

section Escape
variable {l : Lexer} {cs after : List Char} {n escape start : Nat} {e d : Char}

theorem ascii_of_hexDigit? (h : Quoted.hexDigit? d = some n) : d.toNat ≤ 127 := by
  by_contra hlt
  have hone := Quoted.utf8Size_of_hexDigit h
  have := Char.utf8Size_eq_one_iff.mp hone
  have hval : d.val.toNat = d.toNat := rfl
  have : d.val.toNat ≤ 127 := UInt32.le_iff_toNat_le.mp this
  omega

theorem fourHex?_eq_some (h : fourHex? cs = some n) : cs.length = 4 ∧ ∀ c ∈ cs, c.toNat ≤ 127 := by
  unfold fourHex? at h
  split at h
  · unfold hex4? at h
    simp only [Option.bind_eq_bind, Option.bind_eq_some_iff] at h
    obtain ⟨_, ha, _, hb, _, hc, _, hd, -⟩ := h
    refine ⟨rfl, ?_⟩
    simp only [List.mem_cons, List.not_mem_nil, or_false, forall_eq_or_imp, forall_eq]
    exact ⟨ascii_of_hexDigit? ha, ascii_of_hexDigit? hb, ascii_of_hexDigit? hc, ascii_of_hexDigit? hd⟩
  · cases h

/-- The bytes show four hexadecimal digits where the characters do. -/
theorem fourHex?_view (cs : List Char) : fourHex? ((view cs).take 4) = fourHex? (cs.take 4) := by
  have htake : ∀ {as bs : List Char}, as.length = 4 → as <+: bs → bs.take 4 = as := fun hlen hp => by
    rw [← hlen, ← List.prefix_iff_eq_take.mp hp]
  ext n
  constructor
  · intro h
    obtain ⟨hlen, hascii⟩ := fourHex?_eq_some h
    rwa [htake hlen ((view_startsWith hascii).mp (List.take_prefix 4 _))]
  · intro h
    obtain ⟨hlen, hascii⟩ := fourHex?_eq_some h
    rwa [htake hlen ((view_startsWith hascii).mpr (List.take_prefix 4 _))]

theorem At.readHex4_some (h : l.At cs) (hn : fourHex? (cs.take 4) = some n) :
    readHex4 l = .ok (some n) (l.move 4) ∧ (l.move 4).At (cs.drop 4) := by
  obtain ⟨hlen, hascii⟩ := fourHex?_eq_some hn
  have hsplit : l.At (cs.take 4 ++ cs.drop 4) := by rwa [List.take_append_drop]
  have hmove := hsplit.advanceBy_ascii hascii
  have hmoved := hsplit.move_ascii hascii
  rw [hlen] at hmove hmoved
  refine ⟨?_, hmoved⟩
  rw [readHex4, get_bind, List.map_take, h.ahead.bytes, fourHex?_view, hn]
  exact bind_ok hmove _

theorem At.readHex4_none (h : l.At cs) (hn : fourHex? (cs.take 4) = none) : readHex4 l = .ok none l := by
  rw [readHex4, get_bind, List.map_take, h.ahead.bytes, fourHex?_view, hn]
  rfl

/-- The second half of a surrogate pair at the start of a text. -/
def low? : List Char → Option Nat
  | '\\' :: 'u' :: cs => (fourHex? (cs.take 4)).filter isLowSurrogate
  | _ => none

/-- The character that an escape by code point denotes, and the number of its characters, behind a
backslash and the letter. -/
def point? (cs : List Char) : Option (Char × Nat) :=
  match fourHex? (cs.take 4) with
  | none => none
  | some n =>
    if isHighSurrogate n then (low? (cs.drop 4)).map fun m => (Quoted.pair n m, 10)
    else if isLowSurrogate n then none
    else some (Char.ofNat n, 4)

theorem exists_of_fourHex? (h : fourHex? (cs.take 4) = some n) :
    ∃ a b c d rest, cs = a :: b :: c :: d :: rest ∧ hex4? a b c d = some n := by
  rcases cs with _ | ⟨a, _ | ⟨b, _ | ⟨c, _ | ⟨d, rest⟩⟩⟩⟩
  iterate 4 cases h
  exact ⟨a, b, c, d, rest, rfl, h⟩

theorem exists_of_low? (h : low? cs = some n) : ∃ a b c d rest,
    cs = '\\' :: 'u' :: a :: b :: c :: d :: rest ∧ hex4? a b c d = some n ∧ isLowSurrogate n = true := by
  unfold low? at h
  split at h
  · next cs =>
    obtain ⟨hn, hlow⟩ := Option.filter_eq_some_iff.mp h
    obtain ⟨a, b, c, d, rest, rfl, hex⟩ := exists_of_fourHex? hn
    exact ⟨a, b, c, d, rest, rfl, hex, hlow⟩
  · cases h

theorem low?_of_startsWith (h : ['\\', 'u'] <+: cs) :
    low? cs = (fourHex? ((cs.drop 2).take 4)).filter isLowSurrogate := by
  obtain ⟨rest, rfl⟩ := h
  rfl

theorem low?_of_not_startsWith (h : ¬ ['\\', 'u'] <+: cs) : low? cs = none := by
  unfold low?
  split
  · next rest => exact absurd ⟨rest, rfl⟩ h
  · rfl

/-- The second half of a surrogate pair is read if it is there, and nothing otherwise. -/
theorem At.readLow (h : l.At cs) :
    Lexer.readLow l = .ok (low? cs) (if (low? cs).isSome then l.move 6 else l) := by
  rw [Lexer.readLow, bind_ok (h.sees_here (by simp))]
  by_cases hstarts : ['\\', 'u'] <+: cs
  · rw [low?_of_startsWith hstarts, if_pos (List.isPrefixOf_iff_prefix.mpr hstarts)]
    obtain ⟨rest, rfl⟩ := hstarts
    have hmove : Lexer.advanceBy 2 l = .ok () (l.move 2) := h.advanceBy_ascii (by simp)
    have hmoved : (l.move 2).At rest := h.move_ascii (by simp)
    rw [get_bind, bind_ok hmove]
    change _ = EStateM.Result.ok ((fourHex? (rest.take 4)).filter isLowSurrogate)
      (if ((fourHex? (rest.take 4)).filter isLowSurrogate).isSome then _ else _)
    cases hn : fourHex? (rest.take 4) with
    | none =>
      rw [bind_ok (hmoved.readHex4_none hn)]
      rfl
    | some n =>
      rw [bind_ok (hmoved.readHex4_some hn).1]
      cases hlow : isLowSurrogate n <;> simp only [Option.filter, hlow] <;> rfl
  · rw [low?_of_not_startsWith hstarts, if_neg (by rwa [List.isPrefixOf_iff_prefix])]
    rfl

theorem unicodeError_run (htext : l.source.TextFrom escape ('\\' :: 'u' :: after)) :
    (unicodeError escape : Action Char) l =
      .error (.lexical (Quoted.unicodeError escape ('u' :: after))) l := by
  rw [unicodeError, bind_ok (restFrom_eq htext)]
  rfl

/-- An escape by code point is read as the text behind it tells. -/
theorem At.readUnicode (h : l.At after) (htext : l.source.TextFrom escape ('\\' :: 'u' :: after)) :
    match point? after with
    | some (d, n) => Lexer.readUnicode escape l = .ok d (l.move n)
    | none => ∃ l', Lexer.readUnicode escape l =
        .error (.lexical (Quoted.unicodeError escape ('u' :: after))) l' ∧ l'.source = l.source := by
  rw [point?, Lexer.readUnicode]
  cases hn : fourHex? (after.take 4) with
  | none =>
    rw [bind_ok (h.readHex4_none hn)]
    exact ⟨l, unicodeError_run htext, rfl⟩
  | some n =>
    obtain ⟨hread, hmoved⟩ := h.readHex4_some hn
    rw [bind_ok hread]
    cases hhigh : isHighSurrogate n with
    | true =>
      simp only [hhigh, if_true]
      rw [bind_ok hmoved.readLow]
      cases hlow : low? (after.drop 4) with
      | none => exact ⟨_, unicodeError_run htext, rfl⟩
      | some m => rfl
    | false =>
      cases hlow : isLowSurrogate n with
      | true =>
        simp only [hhigh, hlow, Bool.false_eq_true, if_false, if_true]
        exact ⟨_, unicodeError_run (l := l.move 4) htext, rfl⟩
      | false =>
        simp only [hhigh, hlow, Bool.false_eq_true, if_false]
        rfl

/-- What an escape by code point denotes is a unit of a string. -/
theorem denotes_of_point? (h : point? after = some (d, n)) :
    ∃ part, after = part ++ after.drop n ∧ Quoted.Denotes ('\\' :: 'u' :: part) d ∧
      byteLength ('\\' :: 'u' :: part) = 2 + n := by
  unfold point? at h
  split at h
  · cases h
  · next n' hn =>
    obtain ⟨a, b, c, e, rest, rfl, hex⟩ := exists_of_fourHex? hn
    split_ifs at h with hhigh hlow
    · obtain ⟨m, hm, hpair⟩ := Option.map_eq_some_iff.mp h
      obtain ⟨rfl, rfl⟩ := Prod.mk.inj hpair
      obtain ⟨a', b', c', e', rest', rfl, hex', hlow⟩ := exists_of_low? hm
      exact ⟨[a, b, c, e, '\\', 'u', a', b', c', e'], rfl, .pair hex hhigh hex' hlow,
        Quoted.byteLength_pair hex hex'⟩
    · cases h
      exact ⟨[a, b, c, e], rfl, .point hex (by simpa using hhigh) (by simpa using hlow),
        Quoted.byteLength_point hex⟩

/-- Reading breaks off at an escape by code point that denotes no character. -/
theorem body_of_point?_none {opening offset : Nat} {value : List Char} (h : point? after = none) :
    Quoted.body opening value offset ('\\' :: 'u' :: after) =
      .error (Quoted.unicodeError offset ('u' :: after)) := by
  rw [Quoted.body.eq_def]
  simp only [Quoted.letter?_u, show ('\\' : Char) ≠ '"' by decide, show ('\\' : Char) ≠ '\n' by decide,
    show ('\\' : Char) ≠ '\r' by decide, or_self, if_false, if_true, ne_eq, not_true_eq_false]
  split
  · split
    · rfl
    · split
      · split
        · split
          · rfl
          · split
            · simp_all [point?, fourHex?, low?]
            · rfl
        · rfl
      · split
        · rfl
        · simp_all [point?, fourHex?]
  · rfl

end Escape

/-! ### Quoted strings -/

/-- What stands in a string up to here: what was put together before, and the text since an offset. -/
def Collects (l : Lexer) (before : String) (chunk : Nat) (value cs : List Char) : Prop :=
  ∃ text, l.source.TextFrom chunk (text ++ cs) ∧ l.pos = chunk + byteLength text ∧
    value.reverse = before.toList ++ text

section Quoted
variable {l l' : Lexer} {before : String} {chunk start escape n k : Nat} {value cs after : List Char}
  {c d e v : Char} {vs : List Char} {cooked : Option String}

theorem At.collects (h : l.At cs) (before : String) :
    Collects l before l.pos before.toList.reverse cs := ⟨[], h.text, rfl, by simp⟩

theorem Collects.char (h : Collects l before chunk value (c :: cs)) :
    Collects (l.move c.utf8Size) before chunk (c :: value) cs := by
  obtain ⟨text, htext, hpos, hvalue⟩ := h
  refine ⟨text ++ [c], by simpa using htext, ?_, by simp [hvalue]⟩
  rw [move_pos, hpos, byteLength_append, byteLength_cons, byteLength_nil, Nat.add_zero, Nat.add_assoc]

/-- The text since the last cut is cut out. -/
theorem Collects.slice (h : Collects l before chunk value cs) :
    ∃ t, sliceFrom chunk l = .ok t l ∧ before ++ t = String.ofList value.reverse := by
  obtain ⟨text, htext, hpos, hvalue⟩ := h
  refine ⟨String.ofList text, sliceFrom_eq htext hpos, ?_⟩
  rw [hvalue, String.ofList_append, String.ofList_toList]

theorem Ahead.byteAt (h : l.Ahead vs) (hv : vs[n]? = some v) (hs : l'.source = l.source) :
    byteAt (l.pos + n) l' = .ok v l' := by
  obtain ⟨b, hb, rfl⟩ := Option.map_eq_some_iff.mp ((h.byte n).trans hv)
  rw [Lexer.byteAt, get_bind, hs, hb]
  rfl

theorem ascii_of_letter? (h : letter? e = some d) : e.toNat ≤ 127 := by
  unfold letter? at h
  split at h <;> first | decide | cases h

theorem At.unescape_letter (h : l.At (e :: after)) (hd : letter? e = some d) :
    unescape start escape l = .ok d l := by
  rw [unescape, bind_ok (h.peek_ascii (ascii_of_letter? hd))]
  simp only [hd]
  rfl

theorem At.unescape_point (h : l.At ('u' :: after)) :
    unescape start escape l = Lexer.readUnicode escape (l.move 1) := by
  rw [unescape, bind_ok (h.peek_ascii (by decide))]
  simp only [Quoted.letter?_u, if_true]
  rw [bind_ok h.advance]

theorem At.unescape_unknown (h : l.At (e :: after)) (hd : letter? e = none) (hu : e ≠ 'u') :
    unescape start escape l = .error (.lexical ⟨.unknownEscape e, escape⟩) l := by
  obtain ⟨v, vs, hview, hlow, hhigh⟩ := head_view e after
  have hv : letter? v = none ∧ v ≠ 'u' := by
    by_cases he : e.toNat ≤ 127
    · rw [hlow he]
      exact ⟨hd, hu⟩
    · have hv := hhigh (by omega)
      constructor
      · by_contra hletter
        obtain ⟨d, hd⟩ := Option.ne_none_iff_exists'.mp hletter
        have := ascii_of_letter? hd
        omega
      · rintro rfl
        exact absurd hv (by decide)
  rw [unescape, bind_ok h.peek, hview]
  simp only [List.head?_cons, hv.1, if_neg hv.2]
  rw [get_bind, bind_ok h.shownAt]
  rfl

theorem At.readEscape_letter (h : l.At ('\\' :: e :: after)) (hd : letter? e = some d) (start : Nat) :
    readEscape start l = .ok d (l.move 2) := by
  have hascii := ascii_of_letter? hd
  have hbehind : (l.move 1).At (e :: after) := h.move_one (by decide)
  have hbyte : Lexer.byteAt (l.pos + 1) (l.move 1) = .ok e (l.move 1) := by
    refine h.ahead.byteAt ?_ rfl
    rw [view_cons, view_ascii (by decide), view_cons, view_ascii hascii]
    rfl
  have hu : e ≠ 'u' := by
    rintro rfl
    cases hd
  rw [readEscape, get_bind, bind_ok h.advance, bind_ok (hbehind.unescape_letter hd), bind_ok hbyte]
  simp only [if_pos hu]
  rw [bind_ok hbehind.advance, move_move, pure_run]

theorem At.readEscape_point (h : l.At ('\\' :: 'u' :: after)) (start : Nat) :
    match point? after with
    | some (d, n) => readEscape start l = .ok d (l.move (2 + n))
    | none => ∃ l', readEscape start l =
        .error (.lexical (Quoted.unicodeError l.pos ('u' :: after))) l' ∧ l'.source = l.source := by
  have hbehind : (l.move 1).At ('u' :: after) := h.move_one (by decide)
  have hpoint : (l.move 2).At after := hbehind.move_one (by decide)
  have hread := hpoint.readUnicode h.text
  have hunescape : unescape start l.pos (l.move 1) = Lexer.readUnicode l.pos (l.move 2) :=
    hbehind.unescape_point
  rw [readEscape, get_bind, bind_ok h.advance]
  split at hread
  · next d n _ =>
    have hbyte : Lexer.byteAt (l.pos + 1) ((l.move 2).move n) = .ok 'u' ((l.move 2).move n) := by
      refine h.ahead.byteAt ?_ rfl
      rw [view_cons, view_ascii (by decide), view_cons, view_ascii (by decide)]
      rfl
    rw [bind_ok (hunescape.trans hread), bind_ok hbyte, move_move]
    rfl
  · obtain ⟨l', hread, hs⟩ := hread
    exact ⟨l', bind_error (hunescape.trans hread) _, hs⟩

/-- No other escapes are read. -/
theorem At.readEscape_unknown (h : l.At ('\\' :: e :: after)) (hd : letter? e = none) (hu : e ≠ 'u')
    (start : Nat) :
    ∃ l', readEscape start l = .error (.lexical ⟨.unknownEscape e, l.pos⟩) l' ∧ l'.source = l.source := by
  have hbehind : (l.move 1).At (e :: after) := h.move_one (by decide)
  refine ⟨l.move 1, ?_, rfl⟩
  rw [readEscape, get_bind, bind_ok h.advance]
  exact bind_error (hbehind.unescape_unknown hd hu) _

theorem At.readEscape_end (h : l.At ['\\']) (start : Nat) :
    ∃ l', readEscape start l = .error (.lexical ⟨.unterminatedString, start⟩) l' ∧ l'.source = l.source := by
  have hbehind : (l.move 1).At [] := h.move_one (by decide)
  have hpeek : Lexer.peek (l.move 1) = .ok none (l.move 1) := hbehind.peek
  have hunescape : unescape start l.pos (l.move 1) =
      .error (.lexical ⟨.unterminatedString, start⟩) (l.move 1) := by
    rw [unescape, bind_ok hpeek]
    rfl
  refine ⟨l.move 1, ?_, rfl⟩
  rw [readEscape, get_bind, bind_ok h.advance]
  exact bind_error hunescape _

/-- A backslash opens an escape, and what stands before it is kept. -/
theorem At.quotedStep_backslash {t : String} (h : l.At ('\\' :: cs)) (hslice : sliceFrom chunk l = .ok t l) :
    quotedStep start (cooked, chunk) l = (readEscape start >>= fun d => do
      return .inl (some ((cooked.getD "" ++ t).push d), (← get).pos)) l := by
  rw [quotedStep]
  simp only
  rw [bind_ok (h.peek_ascii (by decide))]
  simp only [show ('\\' : Char) ≠ '"' by decide, show isLineEnd '\\' = false from rfl, if_false,
    Bool.false_eq_true, if_true]
  rw [bind_ok hslice]

/-- Behind an escape the string goes on with what was put together up to there. -/
theorem At.quotedStep_escape (h : l.At ('\\' :: cs)) (hc : Collects l (cooked.getD "") chunk value ('\\' :: cs))
    (hd : readEscape start l = .ok d l') :
    quotedStep start (cooked, chunk) l =
      .ok (.inl (some (String.ofList (d :: value).reverse), l'.pos)) l' := by
  obtain ⟨t, hslice, ht⟩ := hc.slice
  have hpush : (String.ofList value.reverse).push d = String.ofList (d :: value).reverse :=
    String.toList_injective (by simp)
  rw [h.quotedStep_backslash hslice, bind_ok hd, get_bind, ht, hpush, pure_run]

theorem At.quotedStep_escape_error {e : LexError} (h : l.At ('\\' :: cs))
    (hc : Collects l (cooked.getD "") chunk value ('\\' :: cs))
    (hd : readEscape start l = .error (.lexical e) l') :
    quotedStep start (cooked, chunk) l = .error (.lexical e) l' := by
  obtain ⟨t, hslice, -⟩ := hc.slice
  rw [h.quotedStep_backslash hslice]
  exact bind_error hd _

/-- A character of a string that stands for itself. -/
def Plain (c : Char) : Prop :=
  c ≠ '"' ∧ c ≠ '\\' ∧ isLineEnd c = false ∧ ¬ (c.toNat < 0x20 ∧ c ≠ '\t')

theorem plain_of_mem_view (h : Plain c) (hv : v ∈ view [c]) : Plain v := by
  rcases mem_view hv with hv | hv
  · rwa [List.mem_singleton.mp hv]
  · refine ⟨?_, ?_, ?_, fun h => by omega⟩
    · rintro rfl
      exact absurd hv (by decide)
    · rintro rfl
      exact absurd hv (by decide)
    · rw [← Bool.not_eq_true]
      intro h
      have := ascii_of_isLineEnd h
      omega

theorem Ahead.quotedStep_pass (h : l.Ahead (v :: vs)) (hv : Plain v) (st : Option String × Nat) :
    quotedStep start st l = .ok (.inl st) (l.move 1) := by
  obtain ⟨cooked, chunk⟩ := st
  obtain ⟨hq, hb, hl, hc⟩ := hv
  rw [quotedStep]
  simp only
  rw [bind_ok h.peek]
  simp only [List.head?_cons, if_neg hq, hl, Bool.false_eq_true, if_false, if_neg hb, if_neg hc]
  rw [bind_ok h.advance, pure_run]

theorem At.quotedStep_close (h : l.At ('"' :: cs)) (hc : Collects l (cooked.getD "") chunk value ('"' :: cs)) :
    ∃ l', quotedStep start (cooked, chunk) l =
      .ok (.inr ⟨.string, some (String.ofList value.reverse), ⟨start, l.pos + 1⟩⟩) l' ∧
        l'.source = l.source := by
  obtain ⟨t, hslice, ht⟩ := hc.slice
  refine ⟨l.move 1, ?_, rfl⟩
  rw [quotedStep]
  simp only
  rw [bind_ok (h.peek_ascii (by decide))]
  simp only [if_true]
  rw [bind_ok hslice, bind_ok h.advance, get_bind, pure_run, ← ht]
  cases cooked with
  | none =>
    rw [Option.getD_none, String.empty_append]
    rfl
  | some before => rfl

/-- A string ends nowhere but at a quote. -/
theorem At.quotedStep_break (h : l.At cs) (hend : ∀ c ∈ cs.head?, isLineEnd c = true) (st : Option String × Nat) :
    quotedStep start st l = .error (.lexical ⟨.unterminatedString, start⟩) l := by
  obtain ⟨cooked, chunk⟩ := st
  rw [quotedStep]
  simp only
  cases cs with
  | nil =>
    rw [bind_ok h.peek]
    rfl
  | cons c cs =>
    have hc := hend c rfl
    have hq : c ≠ '"' := by
      rintro rfl
      cases hc
    rw [bind_ok (h.peek_ascii (ascii_of_isLineEnd hc))]
    simp only [if_neg hq, hc, if_true]
    rfl

theorem At.quotedStep_control (h : l.At (c :: cs)) (hc : c.toNat < 0x20 ∧ c ≠ '\t')
    (hl : isLineEnd c = false) (st : Option String × Nat) :
    quotedStep start st l = .error (.lexical ⟨.unexpectedCharacter c, l.pos⟩) l := by
  obtain ⟨cooked, chunk⟩ := st
  have hq : c ≠ '"' := by
    rintro rfl
    exact absurd hc.1 (by decide)
  have hb : c ≠ '\\' := by
    rintro rfl
    exact absurd hc.1 (by decide)
  rw [quotedStep]
  simp only
  rw [bind_ok (h.peek_ascii (by omega))]
  simp only [if_neg hq, hl, Bool.false_eq_true, if_false, if_neg hb, if_pos hc]
  rw [get_bind, h.invalidCharacter]

/-- Behind an escape a loop goes on with what the string denotes up to there. -/
theorem At.loop_escape {u : List Char} (h : l.At cs) (hu : cs = '\\' :: u ++ after)
    (hd : Quoted.Denotes ('\\' :: u) d) (hlen : byteLength ('\\' :: u) = k)
    (hread : readEscape start l = .ok d (l.move k)) (hc : Collects l (cooked.getD "") chunk value cs)
    (hn : byteLength cs < n + 1) :
    loop (quotedStep start) (n + 1) (cooked, chunk) l =
        loop (quotedStep start) n (some (String.ofList (d :: value).reverse), l.pos + k) (l.move k) ∧
      (l.move k).At after ∧
      Collects (l.move k) ((some (String.ofList (d :: value).reverse)).getD "") (l.pos + k) (d :: value) after ∧
      byteLength after < n ∧
      Quoted.body start value l.pos cs = Quoted.body start (d :: value) (l.move k).pos after := by
  subst hu hlen
  have hpos : 0 < byteLength ('\\' :: u) := byteLength_pos (by simp)
  have hcollects := h.move.collects (String.ofList (d :: value).reverse)
  rw [String.toList_ofList, List.reverse_reverse] at hcollects
  rw [byteLength_append] at hn
  exact ⟨loop_next (h.quotedStep_escape hc hread), h.move, hcollects, by omega,
    Quoted.body_unit hd start l.pos value after⟩

/-- An escape is read as the character it denotes, or it is refused as a string read from characters refuses it. -/
theorem At.readEscape_gives (h : l.At ('\\' :: cs)) (start : Nat) :
    (∃ part after d, cs = part ++ after ∧ Quoted.Denotes ('\\' :: part) d ∧
      readEscape start l = .ok d (l.move (byteLength ('\\' :: part)))) ∨
    ∃ e l', readEscape start l = .error (.lexical e) l' ∧ l'.source = l.source ∧
      ∀ value, Quoted.body start value l.pos ('\\' :: cs) = .error e := by
  cases cs with
  | nil =>
    obtain ⟨l', hread, hs⟩ := h.readEscape_end start
    exact .inr ⟨_, l', hread, hs, fun _ => rfl⟩
  | cons e after =>
    cases hd : letter? e with
    | some d =>
      refine .inl ⟨[e], after, d, rfl, .letter hd, ?_⟩
      rw [Quoted.byteLength_letter hd]
      exact h.readEscape_letter hd start
    | none =>
      by_cases hu : e = 'u'
      · subst hu
        have hread := h.readEscape_point start
        cases hpoint : point? after with
        | none =>
          rw [hpoint] at hread
          obtain ⟨l', hread, hs⟩ := hread
          exact .inr ⟨_, l', hread, hs, fun _ => body_of_point?_none hpoint⟩
        | some r =>
          obtain ⟨d, k⟩ := r
          rw [hpoint] at hread
          obtain ⟨part, hafter, hdenotes, hlen⟩ := denotes_of_point? hpoint
          refine .inl ⟨'u' :: part, after.drop k, d, ?_, hdenotes, ?_⟩
          · rw [List.cons_append, ← hafter]
          · rw [hlen]
            exact hread
      · obtain ⟨l', hread, hs⟩ := h.readEscape_unknown hd hu start
        refine .inr ⟨_, l', hread, hs, fun value => ?_⟩
        rw [Quoted.body.eq_def]
        simp [hd, hu]

/-- **A lexer reads a string as it is read from characters.** -/
theorem At.loop_quoted {l : Lexer} {cs value : List Char} {cooked : Option String} {chunk n : Nat}
    (h : l.At cs) (hc : Collects l (cooked.getD "") chunk value cs) (hn : byteLength cs < n) :
    Gives l.source (loop (quotedStep start) n (cooked, chunk) l)
      ((Quoted.body start value l.pos cs).map fun r =>
        ⟨.string, some (String.ofList r.1), ⟨start, r.2.1⟩⟩) := by
  obtain ⟨n, rfl⟩ : ∃ k, n = k + 1 := ⟨n - 1, by omega⟩
  cases cs with
  | nil =>
    rw [loop_error (h.quotedStep_break (by simp) _)]
    exact ⟨l, rfl, rfl⟩
  | cons c cs =>
    by_cases hq : c = '"'
    · subst hq
      obtain ⟨l', hstep, hs⟩ := h.quotedStep_close hc
      rw [loop_done hstep, Quoted.body.eq_def]
      exact ⟨l', rfl, hs⟩
    by_cases hl : isLineEnd c = true
    · have hbody : Quoted.body start value l.pos (c :: cs) = .error ⟨.unterminatedString, start⟩ := by
        rw [Quoted.body.eq_def]
        simp only [if_neg hq, if_pos (isLineEnd_iff.mp hl).symm]
      rw [loop_error (h.quotedStep_break (by simpa using hl) _), hbody]
      exact ⟨l, rfl, rfl⟩
    have hl' : ¬ (c = '\n' ∨ c = '\r') := fun h => hl (isLineEnd_iff.mpr h.symm)
    by_cases hb : c = '\\'
    · subst hb
      obtain ⟨part, after, d, hsplit, hdenotes, hread⟩ | ⟨e, l', hread, hs, hbody⟩ := h.readEscape_gives start
      · have hshorter : after.length ≤ cs.length := by
          rw [hsplit, List.length_append]
          exact Nat.le_add_left _ _
        obtain ⟨hloop, hmoved, hc', hlt, hbody⟩ :=
          h.loop_escape (congrArg _ hsplit) hdenotes rfl hread hc hn
        rw [hloop, hbody]
        exact At.loop_quoted hmoved hc' hlt
      · rw [loop_error (h.quotedStep_escape_error hc hread), hbody]
        exact ⟨l', rfl, hs⟩
    by_cases hcontrol : c.toNat < 0x20 ∧ c ≠ '\t'
    · have hbody : Quoted.body start value l.pos (c :: cs) = .error ⟨.unexpectedCharacter c, l.pos⟩ := by
        rw [Quoted.body.eq_def]
        simp only [if_neg hq, if_neg hl', if_neg hb, if_pos hcontrol]
      rw [loop_error (h.quotedStep_control hcontrol (by simpa using hl) _), hbody]
      exact ⟨l, rfl, rfl⟩
    · have hraw : Quoted.body start value l.pos (c :: cs) =
          Quoted.body start (c :: value) (l.pos + c.utf8Size) cs := by
        rw [Quoted.body.eq_def]
        simp only [if_neg hq, if_neg hl', if_neg hb, if_neg hcontrol]
      obtain ⟨hmoved, hlt, hloop⟩ := h.loop_pass (fun l v vs hl' hv => hl'.quotedStep_pass
        (plain_of_mem_view ⟨hq, hb, by simpa using hl, hcontrol⟩ hv) (cooked, chunk)) hn
      rw [hloop, hraw]
      exact At.loop_quoted hmoved hc.char hlt
termination_by cs.length

theorem At.readQuoted (h : l.At ('"' :: cs)) :
    Gives l.source (Lexer.readQuoted l) ((Quoted.body l.pos [] (l.pos + 1) cs).map fun r =>
      ⟨.string, some (String.ofList r.1), ⟨l.pos, r.2.1⟩⟩) := by
  have hmoved : (l.move 1).At cs := h.move_one (by decide)
  have hlt : byteLength cs < (l.move 1).source.bytes.length + 1 := by
    rw [hmoved.text.length_bytes]
    omega
  rw [Lexer.readQuoted, get_bind, bind_ok h.advance, get_bind, repeating, get_bind]
  exact @At.loop_quoted _ _ cs [] none _ _ hmoved (hmoved.collects "") hlt

end Quoted

/-! ### Block strings -/

section Block
variable {l : Lexer} {raw : String} {chunk start n : Nat} {value cs : List Char} {c v : Char}
  {vs : List Char}

open Block (fence IsContent)

theorem ascii_fence : ∀ c ∈ fence, c.toNat ≤ 127 := by simp [fence]

theorem ascii_escapedFence : ∀ c ∈ '\\' :: fence, c.toNat ≤ 127 :=
  List.forall_mem_cons.mpr ⟨by decide, ascii_fence⟩

/-- A byte that opens neither the closing quotes nor an escape is passed over. -/
theorem Ahead.blockStep_pass (h : l.Ahead (v :: vs)) (hf : ¬ fence <+: v :: vs)
    (he : ¬ '\\' :: fence <+: v :: vs) (hc : IsContent v) (st : String × Nat) :
    blockStep start st l = .ok (.inl st) (l.move 1) := by
  obtain ⟨raw, chunk⟩ := st
  have hclose : fence.isPrefixOf (v :: vs) = false := by rwa [← Bool.not_eq_true, List.isPrefixOf_iff_prefix]
  have hescape : ('\\' :: fence).isPrefixOf (v :: vs) = false := by
    rwa [← Bool.not_eq_true, List.isPrefixOf_iff_prefix]
  rw [blockStep]
  simp only
  rw [bind_ok h.peek]
  simp only [List.head?_cons]
  rw [bind_ok (h.sees (Nat.zero_le _) _), List.drop_zero, hclose]
  simp only [Bool.false_eq_true, if_false]
  rw [bind_ok (h.sees (Nat.zero_le _) _), List.drop_zero, hescape]
  simp only [Bool.false_eq_true, if_false, if_neg (Block.not_control hc)]
  rw [bind_ok h.advance, pure_run]

theorem At.blockStep_end (h : l.At []) (st : String × Nat) :
    blockStep start st l = .error (.lexical ⟨.unterminatedBlockString, start⟩) l := by
  obtain ⟨raw, chunk⟩ := st
  rw [blockStep]
  simp only
  rw [bind_ok h.peek]
  rfl

theorem At.blockStep_close (h : l.At (fence ++ cs)) (hc : Collects l raw chunk value (fence ++ cs)) (start : Nat) :
    ∃ l', blockStep start (raw, chunk) l =
      .ok (.inr ⟨.blockString, some (String.ofList (Block.value value.reverse)), ⟨start, l.pos + 3⟩⟩) l' ∧
        l'.source = l.source := by
  obtain ⟨t, hslice, ht⟩ := hc.slice
  have hsees : Lexer.sees 0 fence l = .ok true l := by
    rw [h.sees_here ascii_fence, List.isPrefixOf_iff_prefix.mpr (List.prefix_append fence cs)]
  have hmove : Lexer.advanceBy 3 l = .ok () (l.move 3) := h.advanceBy_ascii ascii_fence
  have hpeek : Lexer.peek l = .ok (some '"') l := @At.peek_ascii l '"' ('"' :: '"' :: cs) h (by decide)
  refine ⟨l.move 3, ?_, rfl⟩
  rw [blockStep]
  simp only
  rw [bind_ok hpeek]
  simp only
  rw [bind_ok hsees]
  simp only [if_true]
  rw [bind_ok hslice, bind_ok hmove, get_bind, pure_run, ht, String.toList_ofList, move_pos]

theorem At.blockStep_escape (h : l.At ('\\' :: fence ++ cs))
    (hc : Collects l raw chunk value ('\\' :: fence ++ cs)) :
    blockStep start (raw, chunk) l =
      .ok (.inl (String.ofList (fence ++ value).reverse, l.pos + 4)) (l.move 4) := by
  obtain ⟨t, hslice, ht⟩ := hc.slice
  have hclose : Lexer.sees 0 fence l = .ok false l := h.sees_here ascii_fence
  have hsees : Lexer.sees 0 ('\\' :: fence) l = .ok true l := by
    rw [h.sees_here ascii_escapedFence, List.isPrefixOf_iff_prefix.mpr (List.prefix_append ('\\' :: fence) cs)]
  have hmove : Lexer.advanceBy 4 l = .ok () (l.move 4) := h.advanceBy_ascii ascii_escapedFence
  have hpeek : Lexer.peek l = .ok (some '\\') l := @At.peek_ascii l '\\' (fence ++ cs) h (by decide)
  have hjoin : String.ofList value.reverse ++ String.ofList fence = String.ofList (fence ++ value).reverse := by
    rw [← String.ofList_append, List.reverse_append]
    rfl
  rw [blockStep]
  simp only
  rw [bind_ok hpeek]
  simp only
  rw [bind_ok hclose]
  simp only [Bool.false_eq_true, if_false]
  rw [bind_ok hsees]
  simp only [if_true]
  rw [bind_ok hslice, bind_ok hmove, get_bind, pure_run, ht, hjoin, move_pos]

theorem At.blockStep_control (h : l.At (c :: cs)) (hc : ¬ IsContent c) (st : String × Nat) :
    blockStep start st l = .error (.lexical ⟨.unexpectedCharacter c, l.pos⟩) l := by
  obtain ⟨raw, chunk⟩ := st
  have hcontrol : c.toNat < 0x20 ∧ c ≠ '\t' ∧ c ≠ '\n' ∧ c ≠ '\r' := by
    rw [IsContent, not_or, not_or, not_or] at hc
    exact ⟨by omega, hc.2⟩
  have hno : ∀ d ds, 0x20 ≤ d.toNat → (d :: ds).isPrefixOf (c :: cs) = false := fun d ds hd => by
    have hne : (d == c) = false := beq_false_of_ne fun he => by
      rw [he] at hd
      omega
    rw [List.isPrefixOf_cons_cons, hne, Bool.false_and]
  have hclose : Lexer.sees 0 fence l = .ok false l := by
    rw [h.sees_here ascii_fence, fence, hno '"' _ (by decide)]
  have hescape : Lexer.sees 0 ('\\' :: fence) l = .ok false l := by
    rw [h.sees_here ascii_escapedFence, hno '\\' _ (by decide)]
  rw [blockStep]
  simp only
  rw [bind_ok (h.peek_ascii (by omega))]
  simp only
  rw [bind_ok hclose]
  simp only [Bool.false_eq_true, if_false]
  rw [bind_ok hescape]
  simp only [Bool.false_eq_true, if_false, if_pos hcontrol]
  rw [get_bind, h.invalidCharacter]

theorem not_prefix_of_high {d : Char} {ds : List Char} (hv : 127 < v.toNat) (hd : d.toNat ≤ 127) :
    ¬ d :: ds <+: v :: vs := by
  rw [List.cons_prefix_cons]
  rintro ⟨rfl, -⟩
  omega

/-- A character of the contents is passed over byte by byte; the closing quotes and an escape start between
two characters. -/
theorem At.loop_content (h : l.At (c :: cs)) (hf : ¬ fence <+: c :: cs) (he : ¬ '\\' :: fence <+: c :: cs)
    (hc : IsContent c) (hn : byteLength (c :: cs) < n) (st : String × Nat) :
    (l.move c.utf8Size).At cs ∧ byteLength cs < n - c.utf8Size ∧
      loop (blockStep start) n st l = loop (blockStep start) (n - c.utf8Size) st (l.move c.utf8Size) := by
  by_cases hlow : c.toNat ≤ 127
  · obtain ⟨n, rfl⟩ : ∃ k, n = k + 1 := ⟨n - 1, by omega⟩
    have hahead := h.ahead
    have hview : view (c :: cs) = c :: view cs := by rw [view_cons, view_ascii hlow, List.singleton_append]
    rw [← view_startsWith ascii_fence, hview] at hf
    rw [← view_startsWith ascii_escapedFence, hview] at he
    rw [hview] at hahead
    rw [byteLength_cons, utf8Size_eq_one hlow] at hn
    rw [utf8Size_eq_one hlow]
    exact ⟨h.move_one hlow, by omega, loop_next (hahead.blockStep_pass hf he hc st)⟩
  · refine h.loop_pass (fun l v vs hl hv => ?_) hn
    have hhigh := high_of_mem_view (by omega) hv
    exact hl.blockStep_pass (not_prefix_of_high hhigh (by decide)) (not_prefix_of_high hhigh (by decide))
      (Or.inl (by omega)) st

/-- **A lexer reads a block string as it is read from characters.** -/
theorem At.loop_block {l : Lexer} {cs value : List Char} {raw : String} {chunk n : Nat} (h : l.At cs)
    (hc : Collects l raw chunk value cs) (hn : byteLength cs < n) :
    Gives l.source (loop (blockStep start) n (raw, chunk) l)
      ((Block.body start value l.pos cs).map fun r =>
        ⟨.blockString, some (String.ofList (Block.value r.1)), ⟨start, r.2.1⟩⟩) := by
  obtain ⟨n, rfl⟩ : ∃ k, n = k + 1 := ⟨n - 1, by omega⟩
  by_cases hf : fence <+: cs
  · obtain ⟨cs, rfl⟩ := hf
    obtain ⟨l', hstep, hs⟩ := h.blockStep_close hc start
    rw [loop_done hstep, Block.body_fence]
    exact ⟨l', rfl, hs⟩
  by_cases he : '\\' :: fence <+: cs
  · obtain ⟨cs, rfl⟩ := he
    have hmoved : (l.move 4).At cs := h.move_ascii ascii_escapedFence
    have hcollects := hmoved.collects (String.ofList (fence ++ value).reverse)
    rw [String.toList_ofList, List.reverse_reverse] at hcollects
    have hlt : byteLength cs < n := by
      have hfour : byteLength ('\\' :: fence) = 4 := rfl
      rw [byteLength_append, hfour] at hn
      omega
    rw [loop_next (h.blockStep_escape hc), Block.body_escape]
    exact At.loop_block hmoved hcollects hlt
  cases cs with
  | nil =>
    rw [loop_error (h.blockStep_end _)]
    exact ⟨l, rfl, rfl⟩
  | cons c cs =>
    by_cases hcontent : IsContent c
    · have hescape : c = '\\' → ¬ fence <+: cs := by
        rintro rfl hp
        exact he ((List.prefix_cons_inj _).mpr hp)
      obtain ⟨hmoved, hlt, hloop⟩ := h.loop_content hf he hcontent hn (raw, chunk)
      rw [Block.body_cons hf hescape hcontent, hloop]
      exact At.loop_block hmoved hc.char hlt
    · rw [loop_error (h.blockStep_control hcontent _), Block.body_of_not_content hcontent]
      exact ⟨l, rfl, rfl⟩
termination_by cs.length

theorem At.readBlock (h : l.At (fence ++ cs)) :
    Gives l.source (Lexer.readBlock l) ((Block.body l.pos [] (l.pos + 3) cs).map fun r =>
      ⟨.blockString, some (String.ofList (Block.value r.1)), ⟨l.pos, r.2.1⟩⟩) := by
  have hmove : Lexer.advanceBy 3 l = .ok () (l.move 3) := h.advanceBy_ascii ascii_fence
  have hmoved : (l.move 3).At cs := h.move_ascii ascii_fence
  have hlt : byteLength cs < (l.move 3).source.bytes.length + 1 := by
    rw [hmoved.text.length_bytes]
    omega
  rw [Lexer.readBlock, get_bind, bind_ok hmove, get_bind, repeating, get_bind]
  exact hmoved.loop_block (hmoved.collects "") hlt

end Block

end QueryDocs.Lexer
