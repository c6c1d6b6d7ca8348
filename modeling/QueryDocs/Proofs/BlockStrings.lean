import QueryDocs.Proofs.Outcomes
import QueryDocs.Proofs.Tokens.Demand

/-! # Block strings

The text behind three quotes is read from left to right as `Part`s: escapes, and characters for
themselves. The block string ends at the first three quotes that belong to no escape, and its value is
that of the text with the escapes replaced. Where a control character or the end of the text comes before
such quotes there is an error (`Source.next_blockString`). -/

namespace QueryDocs

open QueryDocs.Text

namespace Block

/-- A part of the text behind the opening quotes. -/
inductive Part where
  /-- Three quotes behind a backslash. -/
  | escape
  /-- A character. -/
  | char (c : Char)
deriving DecidableEq, Repr

/-- How a part is written. -/
def Part.chars : Part → List Char
  | .escape => '\\' :: fence
  | .char c => [c]

/-- What a part stands for. -/
def Part.raw : Part → List Char
  | .escape => fence
  | .char c => [c]

/-- A part can stand in a block string. -/
def Part.IsContent : Part → Prop
  | .escape => True
  | .char c => Block.IsContent c

instance : (q : Part) → Decidable q.IsContent
  | .escape => inferInstanceAs (Decidable True)
  | .char c => inferInstanceAs (Decidable (Block.IsContent c))

/-- The parts of a text from left to right: an escape wherever a backslash stands before three quotes. -/
def parts : List Char → List Part
  | [] => []
  | '\\' :: '"' :: '"' :: '"' :: cs => .escape :: parts cs
  | c :: cs => .char c :: parts cs

/-- Three quotes that belong to no escape. -/
def closing : List Part := [.char '"', .char '"', .char '"']

/-- Closing quotes start nowhere before the last ones of some parts. -/
def Open (before behind : List Part) : Prop :=
  ∀ as bs, before = as ++ bs → bs ≠ [] → ¬ closing <+: bs ++ behind

section Open
variable {before behind : List Part}

theorem open_nil (behind : List Part) : Open [] behind := fun _ _ h hne =>
  absurd (List.append_eq_nil_iff.mp h.symm).2 hne

theorem open_closing_iff : Open before (closing ++ behind) ↔
    ∀ before' behind', before ++ closing ++ behind = before' ++ closing ++ behind' →
      before.length ≤ before'.length := by
  constructor
  · intro hopen before' behind' h
    by_contra hlt
    rw [List.append_assoc, List.append_assoc] at h
    obtain ⟨bs, rfl⟩ : before' <+: before :=
      List.prefix_of_prefix_length_le ⟨_, h.symm⟩ ⟨_, rfl⟩ (by omega)
    have hne : bs ≠ [] := by
      rintro rfl
      simp at hlt
    rw [List.append_assoc, List.append_cancel_left_eq] at h
    exact hopen before' bs rfl hne ⟨behind', h.symm⟩
  · rintro hfirst as bs rfl hne ⟨k, hk⟩
    have hle := hfirst as k (by rw [List.append_assoc, List.append_assoc, List.append_assoc, hk])
    have := List.length_pos_of_ne_nil hne
    rw [List.length_append] at hle
    omega

theorem open_iff_not_infix (h : behind.head? ≠ some (.char '"')) :
    Open before behind ↔ ¬ closing <:+: before := by
  constructor
  · rintro hopen ⟨as, bs, rfl⟩
    exact hopen as (closing ++ bs) (by simp) (by simp [closing]) ⟨bs ++ behind, by simp⟩
  · rintro hnot as bs rfl hne ⟨k, hk⟩
    -- the quotes do not reach over the end of the parts
    have hlen : closing.length ≤ bs.length := by
      by_contra hlt
      have hquote : ∀ i < closing.length, closing[i]? = some (.char '"') := by decide
      have hget : (closing ++ k)[bs.length]? = (bs ++ behind)[bs.length]? := by rw [hk]
      rw [List.getElem?_append_left (by omega), hquote _ (by omega),
        List.getElem?_append_right le_rfl, Nat.sub_self, ← List.head?_eq_getElem?] at hget
      exact h hget.symm
    have hp : closing <+: bs := List.prefix_of_prefix_length_le ⟨k, hk⟩ ⟨behind, rfl⟩ hlen
    exact hnot (hp.isInfix.trans (List.suffix_append as bs).isInfix)

theorem exists_open (ps : List Part) : ∃ before behind, ps = before ++ behind ∧ Open before behind ∧
    (∀ q ∈ before, q.IsContent) ∧
    (closing <+: behind ∨ behind = [] ∨ ∃ c behind', behind = .char c :: behind' ∧ ¬ IsContent c) := by
  induction ps with
  | nil => exact ⟨[], [], rfl, open_nil _, by simp, Or.inr (Or.inl rfl)⟩
  | cons q qs ih =>
    by_cases hclosing : closing <+: q :: qs
    · exact ⟨[], q :: qs, rfl, open_nil _, by simp, Or.inl hclosing⟩
    by_cases hq : q.IsContent
    · obtain ⟨before, behind, rfl, hopen, hcontent, hend⟩ := ih
      refine ⟨q :: before, behind, rfl, ?_, List.forall_mem_cons.mpr ⟨hq, hcontent⟩, hend⟩
      intro as bs h hne
      cases as with
      | nil =>
        rw [List.nil_append] at h
        rw [← h]
        exact hclosing
      | cons a as => exact hopen as bs (List.cons.inj h).2 hne
    · cases q with
      | escape => exact absurd trivial hq
      | char c => exact ⟨[], .char c :: qs, rfl, open_nil _, by simp, Or.inr (Or.inr ⟨c, qs, rfl, hq⟩)⟩

theorem open_cases (ps : List Part) :
    (∃ before behind, ps = before ++ closing ++ behind ∧ Open before (closing ++ behind) ∧
      ∀ q ∈ before, q.IsContent) ∨
    (∃ before c behind, ps = before ++ .char c :: behind ∧ ¬ IsContent c ∧
      Open before (.char c :: behind) ∧ ∀ q ∈ before, q.IsContent) ∨
    Open ps [] ∧ ∀ q ∈ ps, q.IsContent := by
  obtain ⟨before, behind, rfl, hopen, hcontent, ⟨behind, rfl⟩ | rfl | ⟨c, behind, rfl, hc⟩⟩ :=
    exists_open ps
  · exact Or.inl ⟨before, behind, (List.append_assoc _ _ _).symm, hopen, hcontent⟩
  · rw [List.append_nil]
    exact Or.inr (Or.inr ⟨hopen, hcontent⟩)
  · exact Or.inr (Or.inl ⟨before, c, behind, rfl, hc, hopen, hcontent⟩)

end Open

section Body
variable {cs : List Char} {c : Char} {q : Part} {before behind qs : List Part}

theorem parts_char (h : c = '\\' → ¬ fence <+: cs) : parts (c :: cs) = .char c :: parts cs := by
  rw [parts]
  rintro rest hc rfl
  exact h hc ⟨rest, rfl⟩

theorem exists_of_parts_cons (h : parts cs = q :: qs) :
    ∃ rest, cs = q.chars ++ rest ∧ parts rest = qs ∧
      ∀ c, q = .char c → c = '\\' → ¬ fence <+: rest := by
  cases cs with
  | nil => cases h
  | cons c cs =>
    by_cases hescape : c = '\\' ∧ fence <+: cs
    · obtain ⟨rfl, rest, rfl⟩ := hescape
      obtain ⟨rfl, rfl⟩ := List.cons.inj (h : Part.escape :: parts rest = q :: qs)
      exact ⟨rest, rfl, rfl, fun c hc => by cases hc⟩
    · rw [not_and] at hescape
      rw [parts_char hescape] at h
      obtain ⟨rfl, rfl⟩ := List.cons.inj h
      refine ⟨cs, rfl, rfl, fun d hd => ?_⟩
      cases hd
      exact hescape

theorem eq_nil_of_parts (h : parts cs = []) : cs = [] := by
  rw [parts.eq_def] at h
  split at h <;> first | rfl | cases h

theorem parts_fence (cs : List Char) : parts (fence ++ cs) = closing ++ parts cs := rfl

theorem exists_of_parts_closing (h : parts cs = closing ++ qs) :
    ∃ rest, cs = fence ++ rest ∧ parts rest = qs := by
  obtain ⟨cs, rfl, h, -⟩ := exists_of_parts_cons h
  obtain ⟨cs, rfl, h, -⟩ := exists_of_parts_cons h
  obtain ⟨cs, rfl, h, -⟩ := exists_of_parts_cons h
  exact ⟨cs, rfl, h⟩

theorem body_open (h : parts cs = before ++ behind) (hopen : Open before behind)
    (hcontent : ∀ q ∈ before, q.IsContent) (opening offset : Nat) (acc : List Char) :
    ∃ rest, parts rest = behind ∧ body opening acc offset cs =
      body opening ((before.flatMap Part.raw).reverse ++ acc)
        (offset + byteLength (before.flatMap Part.chars)) rest := by
  induction before generalizing cs offset acc with
  | nil => exact ⟨cs, h, rfl⟩
  | cons q before ih =>
    obtain ⟨hq, hcontent⟩ := List.forall_mem_cons.mp hcontent
    have hno : ¬ closing <+: parts cs := by
      rw [h]
      exact hopen [] (q :: before) rfl (by simp)
    have hopen' : Open before behind := fun as bs hbs hne => hopen (q :: as) bs (by rw [hbs]; rfl) hne
    obtain ⟨cs, rfl, hcs, hescape⟩ := exists_of_parts_cons h
    have hstep : body opening acc offset (q.chars ++ cs) =
        body opening (q.raw.reverse ++ acc) (offset + byteLength q.chars) cs := by
      cases q with
      | escape => rfl
      | char c =>
        refine body_cons ?_ (hescape c rfl) hq
        rintro ⟨k, hk⟩
        exact hno ⟨parts k, by rw [← parts_fence, hk]; rfl⟩
    obtain ⟨rest, hrest, hbody⟩ := ih hcs hopen' hcontent (offset + byteLength q.chars)
      (q.raw.reverse ++ acc)
    refine ⟨rest, hrest, ?_⟩
    rw [hstep, hbody, List.flatMap_cons, List.flatMap_cons, byteLength_append, List.reverse_append,
      List.append_assoc, Nat.add_assoc]

theorem body_closing (h : parts cs = before ++ closing ++ behind)
    (hopen : Open before (closing ++ behind)) (hcontent : ∀ q ∈ before, q.IsContent)
    (opening offset : Nat) : ∃ rest, body opening [] offset cs =
      .ok (before.flatMap Part.raw, offset + byteLength (before.flatMap Part.chars) + 3, rest) := by
  rw [List.append_assoc] at h
  obtain ⟨rest, hrest, hbody⟩ := body_open h hopen hcontent opening offset []
  obtain ⟨rest, rfl, -⟩ := exists_of_parts_closing hrest
  refine ⟨rest, ?_⟩
  rw [hbody, List.append_nil]
  simp [fence, body]

theorem body_control (h : parts cs = before ++ .char c :: behind) (hopen : Open before (.char c :: behind))
    (hcontent : ∀ q ∈ before, q.IsContent) (hc : ¬ IsContent c) (opening offset : Nat) :
    body opening [] offset cs =
      .error ⟨.unexpectedCharacter c, offset + byteLength (before.flatMap Part.chars)⟩ := by
  obtain ⟨rest, hrest, hbody⟩ := body_open h hopen hcontent opening offset []
  obtain ⟨rest, rfl, -⟩ := exists_of_parts_cons hrest
  rw [hbody, Part.chars, List.singleton_append, body_of_not_content hc]

theorem body_endless (hopen : Open (parts cs) []) (hcontent : ∀ q ∈ parts cs, q.IsContent)
    (opening offset : Nat) :
    body opening [] offset cs = .error ⟨.unterminatedBlockString, opening⟩ := by
  obtain ⟨rest, hrest, hbody⟩ := body_open (List.append_nil _).symm hopen hcontent opening offset []
  obtain rfl := eq_nil_of_parts hrest
  rw [hbody, body]

end Body

end Block

section Strings
open Block
variable {s : Source} {p : Token} {offset : Nat} {cs : List Char} {before behind : List Part} {c : Char}

theorem Source.NextAt.next_closing (h : s.NextAt p offset (fence ++ cs))
    (hcs : parts cs = before ++ closing ++ behind) (hopen : Open before (closing ++ behind))
    (hcontent : ∀ q ∈ before, q.IsContent) :
    s.next p = .ok ⟨.blockString, some (String.ofList (value (before.flatMap Part.raw))),
      ⟨offset, offset + byteLength (fence ++ before.flatMap Part.chars ++ fence)⟩⟩ := by
  obtain ⟨rest, hbody⟩ := body_closing hcs hopen hcontent offset (offset + 3)
  have hstop : offset + 3 + byteLength (before.flatMap Part.chars) + 3 =
      offset + byteLength (fence ++ before.flatMap Part.chars ++ fence) := by
    rw [byteLength_append, byteLength_fence_append, show byteLength fence = 3 by decide]
    omega
  rw [h.next_fence, hbody, hstop]
  rfl

theorem Source.NextAt.next_control (h : s.NextAt p offset (fence ++ cs))
    (hcs : parts cs = before ++ .char c :: behind) (hopen : Open before (.char c :: behind))
    (hcontent : ∀ q ∈ before, q.IsContent) (hc : ¬ IsContent c) :
    s.next p =
      .error ⟨.unexpectedCharacter c, offset + byteLength (fence ++ before.flatMap Part.chars)⟩ := by
  rw [h.next_fence, body_control hcs hopen hcontent hc, byteLength_fence_append, Nat.add_assoc]
  rfl

theorem Source.NextAt.next_endless (h : s.NextAt p offset (fence ++ cs)) (hopen : Open (parts cs) [])
    (hcontent : ∀ q ∈ parts cs, q.IsContent) :
    s.next p = .error ⟨.unterminatedBlockString, offset⟩ := by
  rw [h.next_fence, body_endless hopen hcontent]
  rfl

/-- **A block string ends at the first three quotes that belong to no escape.** Behind three quotes a
block string is read exactly if such quotes stand before the end and before any control character; it
covers all up to them, and its value is that of the parts before them. Otherwise there is an error: at the
first control character, or at the opening quotes if there is none. -/
theorem Source.next_blockString (h : s.NextAt p offset (fence ++ cs)) :
    (∀ t, s.next p = .ok t ↔ ∃ before behind, parts cs = before ++ closing ++ behind ∧
      (∀ before' behind', parts cs = before' ++ closing ++ behind' → before.length ≤ before'.length) ∧
      (∀ q ∈ before, q.IsContent) ∧
      t = ⟨.blockString, some (String.ofList (value (before.flatMap Part.raw))),
        ⟨offset, offset + byteLength (fence ++ before.flatMap Part.chars ++ fence)⟩⟩) ∧
    ∀ e, s.next p = .error e ↔
      (∃ before c behind, parts cs = before ++ .char c :: behind ∧ ¬ IsContent c ∧
        (∀ q ∈ before, q.IsContent) ∧ ¬ closing <:+: before ∧
        e = ⟨.unexpectedCharacter c, offset + byteLength (fence ++ before.flatMap Part.chars)⟩) ∨
      (∀ q ∈ parts cs, q.IsContent) ∧ ¬ closing <:+: parts cs ∧
        e = ⟨.unterminatedBlockString, offset⟩ := by
  -- what follows is no quote if it is a control character or the end
  have hcontrol : ∀ {before behind : List Part} {c : Char}, ¬ IsContent c →
      (Open before (.char c :: behind) ↔ ¬ closing <:+: before) := by
    refine fun hc => open_iff_not_infix ?_
    rintro ⟨⟩
    exact hc (Or.inl (by decide))
  have hendless : Open (parts cs) [] ↔ ¬ closing <:+: parts cs := open_iff_not_infix (by simp)
  refine ⟨fun t => ⟨fun ht => ?_, ?_⟩, fun e => ⟨fun he => ?_, ?_⟩⟩
  · obtain ⟨before, behind, hcs, hopen, hcontent⟩ | ⟨before, c, behind, hcs, hc, hopen, hcontent⟩ |
      ⟨hopen, hcontent⟩ := open_cases (parts cs)
    · rw [h.next_closing hcs hopen hcontent] at ht
      refine ⟨before, behind, hcs, ?_, hcontent, (Except.ok.inj ht).symm⟩
      rw [hcs]
      exact open_closing_iff.mp hopen
    · rw [h.next_control hcs hopen hcontent hc] at ht
      cases ht
    · rw [h.next_endless hopen hcontent] at ht
      cases ht
  · rintro ⟨before, behind, hcs, hfirst, hcontent, rfl⟩
    rw [hcs] at hfirst
    exact h.next_closing hcs (open_closing_iff.mpr hfirst) hcontent
  · obtain ⟨before, behind, hcs, hopen, hcontent⟩ | ⟨before, c, behind, hcs, hc, hopen, hcontent⟩ |
      ⟨hopen, hcontent⟩ := open_cases (parts cs)
    · rw [h.next_closing hcs hopen hcontent] at he
      cases he
    · rw [h.next_control hcs hopen hcontent hc] at he
      exact Or.inl ⟨before, c, behind, hcs, hc, hcontent, (hcontrol hc).mp hopen,
        (Except.error.inj he).symm⟩
    · rw [h.next_endless hopen hcontent] at he
      exact Or.inr ⟨hcontent, hendless.mp hopen, (Except.error.inj he).symm⟩
  · rintro (⟨before, c, behind, hcs, hc, hcontent, hno, rfl⟩ | ⟨hcontent, hno, rfl⟩)
    · exact h.next_control hcs ((hcontrol hc).mpr hno) hcontent hc
    · exact h.next_endless (hendless.mpr hno) hcontent

/-- An escape behind a backslash, a quote alone, and a quote behind the closing ones. -/
theorem Source.next_blockString_quotes :
    let s : Source := ⟨"a \"\"\"\\\\\"\"\" \" b\"\"\"\"", none⟩
    let p : Token := ⟨.name, some "a", ⟨0, 1⟩⟩
    let cs := "\\\\\"\"\" \" b\"\"\"\"".toList
    s.NextAt p 2 (fence ++ cs) ∧
      s.next p = .ok ⟨.blockString, some "\\\"\"\" \" b", ⟨2, 17⟩⟩ := by
  intro s p cs
  have hchars : s.chars = ['a'] ++ ([' '] ++ (fence ++ cs)) := by decide +kernel
  have hat : s.NextAt p 2 (fence ++ cs) :=
    ⟨rfl, [' '], ⟨['a'], hchars, rfl⟩, Or.inl (.blank (by simp) .nil), rfl⟩
  have hfirst : ∀ before behind, parts cs = before ++ closing ++ behind → 6 ≤ before.length := by
    intro before behind h
    have hno : ∀ i < 6, ¬ closing <+: (parts cs).drop i := by decide
    by_contra hlt
    refine hno before.length (by omega) ?_
    rw [h, List.append_assoc, List.drop_left]
    exact List.prefix_append _ _
  exact ⟨hat, ((Source.next_blockString hat).1 _).mpr ⟨[.char '\\', .escape, .char ' ', .char '"',
    .char ' ', .char 'b'], [.char '"'], rfl, hfirst, by decide, by decide +kernel⟩⟩

end Strings

end QueryDocs
