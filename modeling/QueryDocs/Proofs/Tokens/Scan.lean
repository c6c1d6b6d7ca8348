import QueryDocs.Proofs.Tokens.Block
import QueryDocs.Proofs.Tokens.Number
import QueryDocs.Proofs.Tokens.Quoted

/-! # Reading one token

A token is read where it is written (`scanToken_eq_ok_iff`), from a stretch of the text behind some
trivia. It stays the same token whatever stands behind that stretch, as long as it `Precedes` it
(`scan_resume`); in particular a line end may stand there, and a line end in front of a token changes
nothing either (`scan_newline`). Every token is of the form its class prescribes
(`Lexeme.Written.valid`). -/

namespace QueryDocs

open QueryDocs.Text

/-! ### Lexemes -/

/-- A token without its place: its class and its value. -/
abbrev Lexeme := Token.Kind × Option String

/-- The class and the value of a token. -/
def Token.lexeme (t : Token) : Lexeme := (t.kind, t.value)

/-- The form of the tokens of each class. -/
def Lexeme.Valid : Lexeme → Prop
  | (.name, some v) => NameText.IsName v.toList
  | (.int, some v) => Number.IsInt v.toList
  | (.float, some v) => Number.IsFloat v.toList
  | (.string, some _) => True
  | (.blockString, some v) => ∀ c ∈ v.toList, Block.IsValueChar c
  | (k, none) => k.isMark = true
  | _ => False

theorem Lexeme.Valid.ne_end {l : Lexeme} (h : l.Valid) : l.1 ≠ .endOfText := by
  rintro he
  obtain ⟨k, v⟩ := l
  simp only at he
  subst he
  cases v <;> simp [Lexeme.Valid, Token.Kind.isMark, Token.Kind.spelling?] at h

/-! ### Characters of names and numbers -/

theorem NameText.ascii_of_isPart {c : Char} (h : isPart c = true) : c.toNat ≤ 127 := by
  unfold isPart Char.isAlphanum Char.isAlpha Char.isUpper Char.isLower Char.isDigit at h
  simp only [Bool.or_eq_true, beq_iff_eq, Bool.and_eq_true, decide_eq_true_eq, ge_iff_le,
    UInt32.le_iff_toNat_le] at h
  have hto : c.toNat = c.val.toNat := rfl
  have hz : ('z' : Char).val.toNat = 122 := rfl
  have hZ : ('Z' : Char).val.toNat = 90 := rfl
  have h9 : ('9' : Char).val.toNat = 57 := rfl
  rcases h with rfl | (⟨-, h⟩ | ⟨-, h⟩) | ⟨-, h⟩
  · decide
  all_goals omega

theorem Number.ascii_of_isDigit {c : Char} (h : c.isDigit = true) : c.toNat ≤ 127 :=
  NameText.ascii_of_isPart (by simp [NameText.isPart, Char.isAlphanum, h])

theorem Number.chars_of_isNumber {cs : List Char} (h : IsNumber cs) :
    ∀ c ∈ cs, continues c = true ∨ c = '-' ∨ c = '+' := by
  obtain ⟨sign, whole, fraction, exponent, rfl, hs, hw, hf, he⟩ := h
  have hd : ∀ {ds : List Char}, IsDigits ds → ∀ c ∈ ds, continues c = true := fun h c hc => by
    simp [continues, h.2 c hc]
  intro c hc
  simp only [List.mem_append] at hc
  rcases hc with ((hc | hc) | hc) | hc
  · rcases hs with rfl | rfl
    · simp at hc
    · exact Or.inr (Or.inl (List.mem_singleton.mp hc))
  · exact Or.inl (hd hw.1 c hc)
  · rcases hf with rfl | ⟨ds, rfl, hds⟩
    · simp at hc
    · rcases List.mem_cons.mp hc with rfl | hc
      · exact Or.inl rfl
      · exact Or.inl (hd hds c hc)
  · rcases he with rfl | ⟨e, sg, ds, rfl, hmark, hsg, hds⟩
    · simp at hc
    · simp only [List.mem_cons, List.mem_append] at hc
      rcases hc with rfl | hc | hc
      · exact Or.inl (by simp [continues, isStart_mark hmark])
      · rcases hsg with rfl | rfl | rfl
        · simp at hc
        · exact Or.inr (Or.inr (List.mem_singleton.mp hc))
        · exact Or.inr (Or.inl (List.mem_singleton.mp hc))
      · exact Or.inl (hd hds c hc)

theorem Number.ascii_of_isNumber {cs : List Char} (h : IsNumber cs) : ∀ c ∈ cs, c.toNat ≤ 127 := by
  intro c hc
  rcases chars_of_isNumber h c hc with hc | rfl | rfl
  · simp only [continues, Bool.or_eq_true, beq_iff_eq] at hc
    rcases hc with (hc | rfl) | hc
    · exact ascii_of_isDigit hc
    · decide
    · exact NameText.ascii_of_isPart (NameText.isPart_of_isStart hc)
  all_goals decide

theorem Number.start_of_isNumber {cs : List Char} (h : IsNumber cs) :
    ∃ c rest, cs = c :: rest ∧ (c == '-' || c.isDigit) = true := by
  obtain ⟨sign, whole, fraction, exponent, rfl, hs, ⟨⟨hne, hall⟩, -⟩, -, -⟩ := h
  rcases hs with rfl | rfl
  · cases whole with
    | nil => exact absurd rfl hne
    | cons c ds => exact ⟨c, _, rfl, by simp [hall c (by simp)]⟩
  · exact ⟨'-', _, rfl, rfl⟩

/-! ### Trivia -/

theorem skipTrivia_append {b : Bool} {offset start : Nat} {cs rest : List Char}
    (h : skipTrivia b offset cs = (start, rest)) :
    ∃ gap, cs = gap ++ rest ∧ start = offset + byteLength gap ∧
      (∀ c rest', rest.head? = some c →
        skipTrivia b offset (gap ++ c :: rest') = (start, c :: rest')) ∧
      ∀ k, skipTrivia b offset (gap ++ '\n' :: k) = skipTrivia false (start + 1) k := by
  have hstep : ∀ {b b' : Bool} {offset : Nat} {c : Char} {cs : List Char},
      (∀ cs', skipTrivia b offset (c :: cs') = skipTrivia b' (offset + c.utf8Size) cs') →
      (∃ gap, cs = gap ++ rest ∧ start = offset + c.utf8Size + byteLength gap ∧
        (∀ d rest', rest.head? = some d →
          skipTrivia b' (offset + c.utf8Size) (gap ++ d :: rest') = (start, d :: rest')) ∧
        ∀ k, skipTrivia b' (offset + c.utf8Size) (gap ++ '\n' :: k) =
          skipTrivia false (start + 1) k) →
      ∃ gap, c :: cs = gap ++ rest ∧ start = offset + byteLength gap ∧
        (∀ d rest', rest.head? = some d →
          skipTrivia b offset (gap ++ d :: rest') = (start, d :: rest')) ∧
        ∀ k, skipTrivia b offset (gap ++ '\n' :: k) = skipTrivia false (start + 1) k := by
    rintro b b' offset c cs hc ⟨gap, rfl, hs, h1, h2⟩
    refine ⟨c :: gap, rfl, by rw [hs, byteLength_cons]; omega, fun d rest' hd => ?_, fun k => ?_⟩
    · rw [List.cons_append, hc, h1 d rest' hd]
    · rw [List.cons_append, hc, h2]
  have hnl : ∀ (b : Bool) (offset : Nat) (k : List Char),
      skipTrivia b offset ('\n' :: k) = skipTrivia false (offset + 1) k := by
    intro b offset k
    cases b <;> rw [skipTrivia] <;> rfl
  fun_induction skipTrivia b offset cs with
  | case1 b offset =>
    cases h
    exact ⟨[], rfl, rfl, by simp, fun k => hnl _ _ k⟩
  | case2 offset c cs ih => exact hstep (fun cs' => by rw [skipTrivia]; rfl) (ih h)
  | case3 b offset cs hb ih =>
    refine hstep (fun cs' => ?_) (ih h)
    rw [skipTrivia, if_neg hb, if_pos rfl]
    rfl
  | case4 b offset c cs hb hn hi ih =>
    exact hstep (fun cs' => by rw [skipTrivia, if_neg hb, if_neg hn, if_pos hi]) (ih h)
  | case5 b offset c cs hb hn hi =>
    cases h
    refine ⟨[], rfl, rfl, fun d rest' hd => ?_, fun k => hnl _ _ k⟩
    cases hd
    rw [List.nil_append, skipTrivia, if_neg hb, if_neg hn, if_neg hi]

/-! ### One token -/

theorem Token.Kind.ascii_of_ofChar? {c : Char} {k : Kind} (h : ofChar? c = some k) :
    c.toNat ≤ 127 := by
  unfold ofChar? at h
  split at h <;> first | decide | cases h

theorem Token.Kind.isMark_of_ofChar? {c : Char} {k : Kind} (h : ofChar? c = some k) :
    k.isMark = true := by
  rw [isMark, spelling?_of_ofChar? h]
  rfl

theorem Token.Kind.ofChar?_of_isPart {c : Char} (h : NameText.isPart c = true) :
    ofChar? c = none := by
  unfold ofChar?
  split <;> first | rfl | exact absurd h (by decide)

theorem NameText.isPart_of_isDigit {c : Char} (h : c.isDigit = true) : isPart c = true := by
  simp [isPart, Char.isAlphanum, h]

theorem scanToken_mark {offset : Nat} {c : Char} {k : Token.Kind}
    (h : Token.Kind.ofChar? c = some k) (rest : List Char) :
    scanToken offset c rest = .ok (⟨k, none, ⟨offset, offset + byteLength [c]⟩⟩, rest) := by
  have : c.utf8Size = 1 := utf8Size_eq_one (Token.Kind.ascii_of_ofChar? h)
  simp only [scanToken, h, byteLength_cons, byteLength_nil, this]

theorem scanToken_name {offset : Nat} {c : Char} {cs rest : List Char}
    (h : NameText.IsName (c :: cs)) (hs : Stops NameText.isPart rest) :
    scanToken offset c (cs ++ rest) =
      .ok (⟨.name, some (String.ofList (c :: cs)), ⟨offset, offset + byteLength (c :: cs)⟩⟩,
        rest) := by
  obtain ⟨_, _, ⟨⟩, hc, hcs⟩ := h
  have hpart : ∀ d ∈ c :: cs, NameText.isPart d = true := by
    rintro d (_ | ⟨_, hd⟩)
    · exact NameText.isPart_of_isStart hc
    · exact List.all_eq_true.mp hcs d hd
  have hlen : byteLength (c :: cs) = (c :: cs).length :=
    byteLength_eq_length fun d hd => NameText.ascii_of_isPart (hpart d hd)
  have hne : ∀ d : Char, NameText.isStart d = false → c ≠ d := by
    rintro d hd rfl
    rw [hc] at hd
    cases hd
  have hdigit : ¬ (c = '-' || c.isDigit) = true := by
    intro hd
    rcases Bool.or_eq_true _ _ ▸ hd with hd | hd
    · exact hne '-' (by decide) (by simpa using hd)
    · simp only [NameText.isStart, Bool.or_eq_true, beq_iff_eq] at hc
      rcases hc with rfl | hc
      · cases hd
      · unfold Char.isAlpha Char.isUpper Char.isLower at hc
        unfold Char.isDigit at hd
        simp [UInt32.le_iff_toNat_le] at hc hd
        omega
  unfold scanToken
  rw [Token.Kind.ofChar?_of_isPart (hpart c (by simp))]
  simp only [if_neg (hne '.' (by decide)), if_neg (hne '"' (by decide)), if_neg hdigit, if_pos hc,
    NameText.split, ← List.cons_append, takeWhile_append_stops hpart hs,
    dropWhile_append_stops hpart hs, hlen]

theorem scanToken_number {offset : Nat} {c : Char} {cs rest : List Char}
    (h : Number.IsNumber (c :: cs)) (hs : Stops Number.continues rest) :
    scanToken offset c (cs ++ rest) =
      .ok (⟨if Number.isFloat (c :: cs) then .float else .int, some (String.ofList (c :: cs)),
        ⟨offset, offset + byteLength (c :: cs)⟩⟩, rest) := by
  have hread : Number.read (c :: (cs ++ rest)) = .ok ⟨c :: cs, rest⟩ :=
    Number.read_eq_ok_iff.mpr ⟨rfl, h, hs⟩
  have hlen : byteLength (c :: cs) = (c :: cs).length :=
    byteLength_eq_length (Number.ascii_of_isNumber h)
  obtain ⟨_, _, ⟨⟩, hc⟩ := Number.start_of_isNumber h
  have hc' : (c = '-' || c.isDigit) = true := by simpa using hc
  have hmark : Token.Kind.ofChar? c = none := by
    rcases Bool.or_eq_true _ _ ▸ hc with hc | hc
    · rw [beq_iff_eq.mp hc]; rfl
    · exact Token.Kind.ofChar?_of_isPart (NameText.isPart_of_isDigit hc)
  have hne : ∀ d : Char, (d == '-' || d.isDigit) = false → c ≠ d := by
    rintro d hd rfl
    rw [hc] at hd
    cases hd
  unfold scanToken
  rw [hmark]
  simp only [if_neg (hne '.' (by decide)), if_neg (hne '"' (by decide)), if_pos hc', hread, hlen]

theorem scanToken_spread (offset : Nat) (rest : List Char) :
    scanToken offset '.' ('.' :: '.' :: rest) =
      .ok (⟨.spread, none, ⟨offset, offset + byteLength ['.', '.', '.']⟩⟩, rest) := rfl

theorem scanToken_quote {offset : Nat} {cs : List Char} (h : ¬ ['"', '"'] <+: cs) :
    scanToken offset '"' cs = (Quoted.body offset [] (offset + 1) cs).map fun r =>
      (⟨.string, some (String.ofList r.1), ⟨offset, r.2.1⟩⟩, r.2.2) := by
  have hno : ∀ contents, cs ≠ '"' :: '"' :: contents := by
    rintro contents rfl
    exact h ⟨contents, rfl⟩
  unfold scanToken
  simp only [show Token.Kind.ofChar? '"' = none from rfl, show ('"' : Char) ≠ '.' by decide, if_false,
    if_true]
  cases Quoted.body offset [] (offset + 1) cs <;> rfl

theorem scanToken_fence (offset : Nat) (cs : List Char) :
    scanToken offset '"' ('"' :: '"' :: cs) = (Block.body offset [] (offset + 3) cs).map fun r =>
      (⟨.blockString, some (String.ofList (Block.value r.1)), ⟨offset, r.2.1⟩⟩, r.2.2) := by
  unfold scanToken
  simp only [show Token.Kind.ofChar? '"' = none from rfl, show ('"' : Char) ≠ '.' by decide, if_false,
    if_true]
  cases Block.body offset [] (offset + 3) cs <;> rfl

theorem scanToken_string {offset : Nat} {us v rest : List Char} (h : Quoted.Spells us v)
    (hs : v = [] → Stops (· == '"') rest) :
    scanToken offset '"' (us ++ '"' :: rest) =
      .ok (⟨.string, some (String.ofList v),
        ⟨offset, offset + byteLength ('"' :: us ++ ['"'])⟩⟩, rest) := by
  have hbody : Quoted.body offset [] (offset + 1) (us ++ '"' :: rest) =
      .ok (v, offset + 1 + byteLength us + 1, rest) :=
    Quoted.body_eq_ok_iff.mpr ⟨us, v, h, rfl, rfl, rfl⟩
  have hlen : offset + byteLength ('"' :: us ++ ['"']) = offset + 1 + byteLength us + 1 := by
    have : ('"' : Char).utf8Size = 1 := by decide
    simp [this]
    omega
  -- the contents do not start with the two quotes that would open a block string
  have hno : ¬ ['"', '"'] <+: us ++ '"' :: rest := by
    rintro ⟨k, hk⟩
    replace hk : us ++ '"' :: rest = '"' :: '"' :: k := hk.symm
    cases h with
    | nil =>
      injection hk with _ hk
      have := hs rfl
      rw [hk] at this
      simp at this
    | cons hd _ => cases hd <;> simp_all
  rw [scanToken_quote hno, hbody, hlen]
  rfl

theorem scanToken_blockString {offset stop : Nat} {cs raw rest : List Char}
    (h : Block.body offset [] (offset + 3) cs = .ok (raw, stop, rest)) :
    scanToken offset '"' ('"' :: '"' :: cs) =
      .ok (⟨.blockString, some (String.ofList (Block.value raw)), ⟨offset, stop⟩⟩, rest) := by
  rw [scanToken_fence, h]
  rfl

/-- How the tokens of each class are written. -/
inductive Lexeme.Written : Lexeme → List Char → Prop
  | mark {c : Char} {k : Token.Kind} (h : Token.Kind.ofChar? c = some k) : Written (k, none) [c]
  | spread : Written (.spread, none) ['.', '.', '.']
  | string {us v : List Char} (h : Quoted.Spells us v) :
    Written (.string, some (String.ofList v)) ('"' :: (us ++ ['"']))
  | blockString {u raw : List Char} (h : ∀ opening offset rest,
      Block.body opening [] offset (u ++ rest) = .ok (raw, offset + byteLength u, rest)) :
    Written (.blockString, some (String.ofList (Block.value raw))) ('"' :: '"' :: '"' :: u)
  | number {cs : List Char} (h : Number.IsNumber cs) :
    Written (if Number.isFloat cs then .float else .int, some (String.ofList cs)) cs
  | name {cs : List Char} (h : NameText.IsName cs) : Written (.name, some (String.ofList cs)) cs

theorem Lexeme.Written.valid {l : Lexeme} {cs : List Char} (h : l.Written cs) : l.Valid := by
  cases h with
  | @mark c k h =>
    have hmark := Token.Kind.isMark_of_ofChar? h
    cases k <;> exact hmark
  | spread => rfl
  | string => trivial
  | blockString h =>
    have hv := Block.isValueChar_of_value (Block.isContent_of_body (h 0 0 []) (by simp))
    simpa [Lexeme.Valid] using hv
  | number h =>
    by_cases hf : Number.isFloat cs = true
    · simpa [Lexeme.Valid, hf] using Number.isFloat_iff.mpr ⟨h, hf⟩
    · have hf : Number.isFloat cs = false := by simpa using hf
      simpa [Lexeme.Valid, hf] using Number.isInt_iff.mpr ⟨h, hf⟩
  | name h => simpa [Lexeme.Valid] using h

section Written
variable {offset : Nat} {c : Char} {cs lex rest : List Char} {t : Token}

/-- What is written as a token is read as this token in front of a text that it can stand before. -/
theorem scanToken_of_written (h : t.lexeme.Written (c :: lex))
    (hspan : t.span = ⟨offset, offset + byteLength (c :: lex)⟩) (hp : t.Precedes rest) :
    scanToken offset c (lex ++ rest) = .ok (t, rest) := by
  obtain ⟨l, s, rfl⟩ : ∃ (l : Lexeme) (s : Span), t = ⟨l.1, l.2, s⟩ := ⟨t.lexeme, t.span, rfl⟩
  obtain rfl : s = _ := hspan
  change l.Written (c :: lex) at h
  cases h with
  | mark h => exact scanToken_mark h rest
  | spread => exact scanToken_spread offset rest
  | string h =>
    rw [List.append_assoc, List.singleton_append]
    exact scanToken_string h fun hv => hp (by rw [hv])
  | @blockString u raw h =>
    have hlen : byteLength ('"' :: '"' :: '"' :: u) = 3 + byteLength u := by
      simp [show ('"' : Char).utf8Size = 1 by decide]
      omega
    rw [hlen, ← Nat.add_assoc]
    exact scanToken_blockString (h offset (offset + 3) rest)
  | number h =>
    refine scanToken_number h ?_
    unfold Token.Precedes at hp
    split_ifs at hp <;> exact hp
  | name h => exact scanToken_name h hp

/-- A token that was read is written in front of what was left. -/
theorem written_of_scanToken (h : scanToken offset c cs = .ok (t, rest)) :
    ∃ lex, cs = lex ++ rest ∧ t.lexeme.Written (c :: lex) ∧
      t.span = ⟨offset, offset + byteLength (c :: lex)⟩ ∧ t.Precedes rest := by
  have hquotes : ('"' : Char).utf8Size = 1 := by decide
  unfold scanToken at h
  split at h
  · next k hk =>
    cases h
    have hmark := Token.Kind.isMark_of_ofChar? hk
    refine ⟨[], rfl, .mark hk, by simp [utf8Size_eq_one (Token.Kind.ascii_of_ofChar? hk)], ?_⟩
    cases k <;> first | exact trivial | cases hmark
  · split_ifs at h with hdot hquote hnumber hname
    · subst hdot
      split at h <;> cases h
      exact ⟨['.', '.'], rfl, .spread, rfl, trivial⟩
    · subst hquote
      split at h
      · next contents =>
        cases hb : Block.body offset [] (offset + 3) contents <;> rw [hb] at h <;> cases h
        obtain ⟨u, rfl, -, hstop, hu⟩ := Block.body_append hb
        refine ⟨'"' :: '"' :: u, rfl, .blockString hu, ?_, trivial⟩
        simp [hquotes, hstop]
        omega
      · next hno =>
        cases hb : Quoted.body offset [] (offset + 1) cs <;> rw [hb] at h <;> cases h
        obtain ⟨u, w, hs, rfl, hv, hstop⟩ := Quoted.body_eq_ok_iff.mp hb
        rw [List.reverse_nil, List.nil_append] at hv
        rw [hv, hstop]
        refine ⟨u ++ ['"'], by simp, .string hs, by simp [hquotes]; omega, fun hw d hd => ?_⟩
        -- what is behind an empty string does not make it the start of a block string
        obtain rfl : w = [] := by simpa using hw
        cases hs
        obtain ⟨ds, hds⟩ := List.head?_eq_some_iff.mp hd
        exact beq_false_of_ne fun hq => hno ds (by rw [hds, hq]; rfl)
    · cases hr : Number.read (c :: cs) <;> rw [hr] at h <;> cases h
      obtain ⟨htext, hnum, hstop⟩ := Number.read_eq_ok_iff.mp hr
      obtain ⟨d, lex, htaken, -⟩ := Number.start_of_isNumber hnum
      rw [htaken] at htext hnum ⊢
      obtain ⟨rfl, rfl⟩ := List.cons.inj htext
      refine ⟨lex, rfl, .number hnum, by rw [byteLength_eq_length (Number.ascii_of_isNumber hnum)], ?_⟩
      unfold Token.Precedes
      split_ifs <;> exact hstop
    · cases h
      have hall : ∀ d ∈ (c :: cs).takeWhile NameText.isPart, NameText.isPart d = true :=
        fun d hd => List.mem_takeWhile_imp hd
      have hc := NameText.isPart_of_isStart hname
      simp only [List.takeWhile_cons_of_pos hc, List.dropWhile_cons_of_pos hc] at hall ⊢
      have hlexeme : NameText.IsName (c :: cs.takeWhile NameText.isPart) :=
        ⟨c, _, rfl, hname, List.all_eq_true.mpr fun d hd => hall d (by simp [hd])⟩
      exact ⟨_, List.takeWhile_append_dropWhile.symm, .name hlexeme,
        by rw [byteLength_eq_length fun d hd => NameText.ascii_of_isPart (hall d hd)],
        stops_dropWhile _ _⟩

/-- **A token is read exactly where it is written** in front of a text that it can stand before. -/
theorem scanToken_eq_ok_iff : scanToken offset c cs = .ok (t, rest) ↔
    ∃ lex, cs = lex ++ rest ∧ t.lexeme.Written (c :: lex) ∧
      t.span = ⟨offset, offset + byteLength (c :: lex)⟩ ∧ t.Precedes rest := by
  refine ⟨written_of_scanToken, ?_⟩
  rintro ⟨lex, rfl, hw, hspan, hp⟩
  exact scanToken_of_written hw hspan hp

/-- The texts from which a token is read, wherever they stand. -/
theorem scanToken_append (h : scanToken offset c cs = .ok (t, rest)) :
    ∃ lex, cs = lex ++ rest ∧ t.span = ⟨offset, offset + byteLength (c :: lex)⟩ ∧
      t.lexeme.Valid ∧ t.Precedes rest ∧
      ∀ rest', t.Precedes rest' → scanToken offset c (lex ++ rest') = .ok (t, rest') := by
  obtain ⟨lex, rfl, hw, hspan, hp⟩ := scanToken_eq_ok_iff.mp h
  exact ⟨lex, rfl, hspan, hw.valid, hp, fun rest' hp' =>
    scanToken_eq_ok_iff.mpr ⟨lex, rfl, hw, hspan, hp'⟩⟩

end Written

theorem Token.isEnd_eq_false_of_valid {t : Token} (h : t.lexeme.Valid) : t.isEnd = false := by
  simpa [Token.isEnd, Token.lexeme] using h.ne_end

/-! ### The next token -/

/-- A line end behind a gap moves on to what stands behind it. -/
theorem scan_newline {offset start : Nat} {gap : List Char}
    (h : ∀ k, skipTrivia false offset (gap ++ '\n' :: k) = skipTrivia false (start + 1) k)
    (k : List Char) : scan offset (gap ++ '\n' :: k) = scan (start + 1) k := by
  rw [scan, h, scan]

theorem scan_of_end {offset : Nat} {cs rest : List Char} {t : Token}
    (h : scan offset cs = .ok (t, rest)) (he : t.isEnd = true) :
    t = .endOfText (offset + byteLength cs) ∧
      ∀ k, scan offset (cs ++ '\n' :: k) = scan (t.span.start + 1) k := by
  unfold scan at h
  split at h
  · next start hskip =>
    cases h
    obtain ⟨gap, rfl, rfl, -, hnl⟩ := skipTrivia_append hskip
    exact ⟨by simp, fun k => by rw [List.append_nil]; exact scan_newline hnl k⟩
  · next start c rest hskip =>
    obtain ⟨lex, -, -, hv, -⟩ := scanToken_append h
    rw [Token.isEnd_eq_false_of_valid hv] at he
    cases he

/-- **A token is read from a gap and a stretch of text that starts where the token does; it is read
again whatever stands behind the stretch, as long as it precedes that.** -/
theorem scan_resume {offset : Nat} {cs rest : List Char} {t : Token}
    (h : scan offset cs = .ok (t, rest)) (he : t.isEnd = false) :
    ∃ gap lex, cs = gap ++ lex ++ rest ∧ lex ≠ [] ∧
      t.span = ⟨offset + byteLength gap, offset + byteLength gap + byteLength lex⟩ ∧
      t.lexeme.Valid ∧ t.Precedes rest ∧
      (∀ rest', t.Precedes rest' → scan offset (gap ++ lex ++ rest') = .ok (t, rest')) ∧
      (∀ k u rest', scan offset (gap ++ lex ++ k) = .ok (u, rest') →
        u.isEnd = false ∧ u.span.start = t.span.start) ∧
      ∀ k, scan offset (gap ++ '\n' :: k) = scan (t.span.start + 1) k := by
  unfold scan at h
  split at h
  · cases h
    cases he
  · next start c cs hskip =>
    obtain ⟨gap, rfl, rfl, hgap, hnl⟩ := skipTrivia_append hskip
    obtain ⟨lex, rfl, hspan, hv, hp, hlex⟩ := scanToken_append h
    refine ⟨gap, c :: lex, by simp, by simp, hspan, hv, hp, fun rest' hp' => ?_,
      fun k u rest' hu => ?_, ?_⟩
    · rw [List.append_assoc, List.cons_append, scan, hgap c (lex ++ rest') rfl]
      exact hlex rest' hp'
    · rw [List.append_assoc, List.cons_append, scan, hgap c (lex ++ k) rfl] at hu
      obtain ⟨lex', -, hspan', hv', -⟩ := scanToken_append hu
      exact ⟨Token.isEnd_eq_false_of_valid hv', by rw [hspan, hspan']⟩
    · rw [hspan]
      exact scan_newline hnl

/-- A token starts behind a gap, and a line end may stand there. -/
theorem scan_break {offset : Nat} {cs rest : List Char} {t : Token}
    (h : scan offset cs = .ok (t, rest)) :
    ∃ gap cs', cs = gap ++ cs' ∧ t.span.start = offset + byteLength gap ∧
      ∀ k, scan offset (gap ++ '\n' :: k) = scan (t.span.start + 1) k := by
  cases he : t.isEnd with
  | true =>
    obtain ⟨ht, hnl⟩ := scan_of_end h he
    exact ⟨cs, [], by simp, by rw [ht]; rfl, hnl⟩
  | false =>
    obtain ⟨gap, lex, rfl, -, hspan, -, -, -, -, hnl⟩ := scan_resume h he
    exact ⟨gap, lex ++ rest, by simp, by rw [hspan], hnl⟩

end QueryDocs
