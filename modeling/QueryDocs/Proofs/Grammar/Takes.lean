import QueryDocs.Proofs.Document.Shape
import QueryDocs.Proofs.Grammar.Reads

/-! # Rules take what nodes are written with

The other direction of `Reads`: on the tokens of a node a rule succeeds, whatever stands behind them
as long as it does not go on with the node, and the result is the node. The tokens are looked at
without their offsets here; a rule does not depend on them. -/

namespace QueryDocs

/-- A token of which the offsets do not matter. -/
def Lexeme.token (l : Lexeme) : Token := ⟨l.1, l.2, .empty 0⟩

/-- The class of the token that stands first. -/
def Lexeme.first : List Lexeme → Token.Kind
  | [] => .endOfText
  | l :: _ => l.1

@[simp] theorem Lexeme.first_cons (l : Lexeme) (ls : List Lexeme) : first (l :: ls) = l.1 := rfl

theorem Lexeme.first_append_ne {k : Token.Kind} {ls ks : List Lexeme} (h : first ls ≠ k)
    (h' : first ks ≠ k) : first (ls ++ ks) ≠ k := by
  cases ls with
  | nil => exact h'
  | cons l ls => exact h

/-- The marks that go on with what stands before them, braces aside. -/
def Lexeme.trailing : List Token.Kind := [.bang, .equals, .leftParen, .atSign, .colon, .pipe]

/-- Offsets are taken away, and some block strings are put in double quotes. -/
def Relabeling.plain (block : String → Bool) : Relabeling := ⟨fun _ => 0, block⟩

/-- A stream of tokens without offsets, with their labels changed. -/
def TokenStream.plain (m : Relabeling) : List Lexeme → TokenStream
  | [] => .finish (.endOfText 0)
  | l :: ls => .token (relabel m l).token (plain m ls)

/-- The place before tokens without offsets, with their labels changed. -/
def Cursor.plain (m : Relabeling) : List Lexeme → Cursor
  | [] => ⟨.endOfText 0, .finish (.endOfText 0), 0⟩
  | l :: ls => ⟨(relabel m l).token, .plain m ls, 0⟩

namespace Rule

open Lexeme (mark word ofOption enclosed barred first)

section Steps
variable {α β : Type} [Labeled α] [Labeled β] {block : String → Bool} {limit : Nat} {x : α} {y : β}
  {r : Rule α} {ls ms ks : List Lexeme}

/-- **A rule takes tokens and gives a node**, with the labels changed, before other tokens. -/
def Takes (block : String → Bool) (limit : Nat) (r : Rule α) (ls : List Lexeme) (x : α)
    (ks : List Lexeme) : Prop :=
  (ls ++ ks).length < limit →
    r (.plain (.plain block) (ls ++ ks)) = .ok (relabel (.plain block) x, .plain (.plain block) ks)

theorem Takes.mono {limit' : Nat} (h : Takes block limit' r ls x ks) (hl : limit ≤ limit') :
    Takes block limit r ls x ks := fun hlen => h (by omega)

theorem Takes.pure {x' : α} (h : relabel (.plain block) x = x') :
    Takes block limit (pure x') [] x ks := by
  intro _
  rw [h]
  rfl

/-- Where the first rule takes a token, less is left for the second one. -/
theorem Takes.bind_succ {k : α → Rule β} (h : Takes block (limit + 1) r ls x (ms ++ ks))
    (hne : ls ≠ []) (hk : Takes block limit (k (relabel (.plain block) x)) ms y ks) :
    Takes block (limit + 1) (r >>= k) (ls ++ ms) y ks := by
  intro hlen
  have hpos := List.length_pos_iff.mpr hne
  rw [List.append_assoc] at hlen ⊢
  rw [bind_ok (h hlen)]
  exact hk (by rw [List.length_append] at hlen; omega)

theorem Takes.bind {k : α → Rule β} (h : Takes block limit r ls x (ms ++ ks))
    (hk : Takes block limit (k (relabel (.plain block) x)) ms y ks) :
    Takes block limit (r >>= k) (ls ++ ms) y ks := by
  intro hlen
  rw [List.append_assoc] at hlen ⊢
  rw [bind_ok (h hlen)]
  exact hk (by rw [List.length_append] at hlen; omega)

theorem Takes.map {f : α → β} (h : Takes block limit r ls x ks)
    (hf : relabel (.plain block) y = f (relabel (.plain block) x)) :
    Takes block limit (r >>= fun x => Pure.pure (f x)) ls y ks := by
  rw [← List.append_nil ls]
  exact Takes.bind h (.pure hf)

/-! ### Looking at the current token -/

/-- The token that stands first, with its labels changed. -/
abbrev head (block : String → Bool) (ls : List Lexeme) : Token :=
  (Cursor.plain (.plain block) ls).current

@[simp] theorem head_mark (k : Token.Kind) (ls : List Lexeme) :
    head block (mark k :: ls) = ⟨k, none, .empty 0⟩ := by
  change (relabel (.plain block) (mark k)).token = _
  rw [relabel_mark]
  rfl

@[simp] theorem head_word (w : String) (ls : List Lexeme) :
    head block (word w :: ls) = ⟨.name, some w, .empty 0⟩ := rfl

theorem span_head : (head block ls).span = .empty 0 := by
  cases ls <;> rfl

/-- Only between the two forms of strings may the class of a token change. -/
theorem kind_head {k : Token.Kind} (hk : k ≠ .string) (hk' : k ≠ .blockString) :
    (head block ls).kind = k ↔ first ls = k := by
  cases ls with
  | nil => rfl
  | cons l ls =>
    obtain ⟨k', v⟩ := l
    rcases v with _ | v
    · cases k' <;> rfl
    · cases k' with
      | blockString =>
        change (if block v then Token.Kind.blockString else .string) = k ↔ .blockString = k
        split_ifs
        · rfl
        · simp [hk.symm, hk'.symm]
      | _ => rfl

theorem Takes.atToken {p : Token → Bool} {k : Bool → Rule α} {b : Bool}
    (hp : p (head block (ls ++ ks)) = b) (h : Takes block limit (k b) ls x ks) :
    Takes block limit (atToken p >>= k) ls x ks := by
  intro hlen
  have := h hlen
  rw [← hp] at this
  exact this

theorem Takes.then {b : Bool} {a a' : Rule α} (hb : b = true) (h : Takes block limit a ls x ks) :
    Takes block limit (if b = true then a else a') ls x ks := by
  rwa [if_pos hb]

theorem Takes.else {b : Bool} {a a' : Rule α} (hb : b = false) (h : Takes block limit a' ls x ks) :
    Takes block limit (if b = true then a else a') ls x ks := by
  rwa [if_neg (by simp [hb])]

theorem Takes.ifTrue {p : Token → Bool} {a a' : Rule α} (hp : p (head block (ls ++ ks)) = true)
    (h : Takes block limit a ls x ks) :
    Takes block limit (Rule.atToken p >>= fun b => if b = true then a else a') ls x ks :=
  .atToken hp (.then rfl h)

theorem Takes.ifFalse {p : Token → Bool} {a a' : Rule α}
    (hp : p (head block (ls ++ ks)) = false) (h : Takes block limit a' ls x ks) :
    Takes block limit (Rule.atToken p >>= fun b => if b = true then a else a') ls x ks :=
  .atToken hp (.else rfl h)

theorem Takes.get {f : Cursor → Rule α}
    (h : Takes block limit (f (.plain (.plain block) (ls ++ ks))) ls x ks) :
    Takes block limit (MonadState.get >>= f) ls x ks := h

theorem Takes.start {k : Nat → Rule α} (h : Takes block limit (k 0) ls x ks) :
    Takes block limit (start >>= k) ls x ks := by
  intro hlen
  change k (head block (ls ++ ks)).span.start _ = _
  rw [span_head]
  exact h hlen

theorem Takes.spanFrom {k : Span → Rule α} (h : Takes block limit (k (.empty 0)) ls x ks) :
    Takes block limit (spanFrom 0 >>= k) ls x ks := by
  have hstop : (Cursor.plain (.plain block) (ls ++ ks)).lastStop = 0 := by
    cases ls ++ ks <;> rfl
  intro hlen
  change k ⟨0, max (Cursor.plain (.plain block) (ls ++ ks)).lastStop 0⟩ _ = _
  rw [hstop]
  exact h hlen

/-- The span of a node is put together when all its tokens are taken. -/
theorem Takes.spanned {f : α → Span → β} (h : Takes block limit r ls x ks)
    (hf : relabel (.plain block) y = f (relabel (.plain block) x) (.empty 0)) :
    Takes block limit (r >>= fun x => Rule.spanFrom 0 >>= fun s => Pure.pure (f x s)) ls y ks := by
  rw [← List.append_nil ls]
  exact Takes.bind h (.spanFrom (.pure hf))

/-! ### Taking the current token -/

theorem advance_plain (m : Relabeling) (l : Lexeme) (ls : List Lexeme) :
    Rule.advance (.plain m (l :: ls)) = .ok ((), .plain m ls) := by
  cases ls <;> rfl

theorem Takes.advance_succ {l : Lexeme} {k : Unit → Rule α} (h : Takes block limit (k ()) ls x ks) :
    Takes block (limit + 1) (advance >>= k) (l :: ls) x ks := by
  intro hlen
  rw [List.cons_append, bind_ok (advance_plain _ _ _)]
  exact h (by simpa using hlen)

theorem Takes.advance {l : Lexeme} {k : Unit → Rule α} (h : Takes block limit (k ()) ls x ks) :
    Takes block limit (advance >>= k) (l :: ls) x ks :=
  h.advance_succ.mono (Nat.le_succ limit)

theorem takes_advance {l : Lexeme} : Takes block limit Rule.advance [l] () ks :=
  fun _ => advance_plain _ _ _

theorem takes_expect {k : Token.Kind} : Takes block limit (expect k) [mark k] () ks := by
  exact Takes.ifTrue (by simp) takes_advance

theorem takes_expectWord {w : String} : Takes block limit (expectWord w) [word w] () ks :=
  Takes.ifTrue (by simp [Token.isWord, Token.text]) takes_advance

theorem takes_name (n : Name) : Takes block limit name [word n.text] n ks :=
  .get (.advance (.pure rfl))

theorem takes_keyword {ofKeyword? : String → Option α} {spelling : α → String} {e : Expectation}
    (htable : ∀ {w x}, ofKeyword? w = some x ↔ spelling x = w) (hlabel : relabel (.plain block) x = x) :
    Takes block limit (keyword ofKeyword? e) [word (spelling x)] x ks := by
  have hx : ofKeyword? (spelling x) = some x := htable.mpr rfl
  have hhead : (Cursor.plain (.plain block) (word (spelling x) :: ks)).current =
      ⟨.name, some (spelling x), .empty 0⟩ := rfl
  refine .get ?_
  rw [List.singleton_append, hhead]
  simp only [Token.text, Option.getD_some, beq_self_eq_true, if_true, hx]
  exact .advance (.pure hlabel)

theorem Takes.accept_succ {k : Token.Kind} {K : Bool → Rule α}
    (h : Takes block limit (K true) ls x ks) :
    Takes block (limit + 1) (accept k >>= K) (mark k :: ls) x ks := by
  rw [accept_bind]
  exact Takes.ifTrue (by simp) (.advance_succ h)

theorem Takes.accept {k : Token.Kind} {K : Bool → Rule α} (h : Takes block limit (K true) ls x ks) :
    Takes block limit (accept k >>= K) (mark k :: ls) x ks :=
  h.accept_succ.mono (Nat.le_succ limit)

theorem Takes.decline {k : Token.Kind} {K : Bool → Rule α} (hk : (head block (ls ++ ks)).kind ≠ k)
    (h : Takes block limit (K false) ls x ks) : Takes block limit (Rule.accept k >>= K) ls x ks := by
  rw [accept_bind]
  exact .ifFalse (by simpa using hk) h

end Steps

/-! ### Options and repetitions -/

section Repetition
variable {α : Type} [Labeled α] {block : String → Bool} {limit : Nat} {p : Token → Bool}
  {item : Rule α} {g : α → List Lexeme} {F : List Lexeme → Prop} {xs : List α} {ks : List Lexeme}

theorem kind_head_mark {k : Token.Kind} (hk : k.isMark = true) {ls : List Lexeme} :
    (head block ls).kind = k ↔ first ls = k :=
  kind_head (by rintro rfl; cases hk) (by rintro rfl; cases hk)

theorem takes_optional {o : Option α}
    (hsome : ∀ x ∈ o, p (head block (g x ++ ks)) = true ∧ Takes block limit item (g x) x ks)
    (hnone : o = none → p (head block ks) = false) :
    Takes block limit (optional p item) (ofOption g o) o ks := by
  cases o with
  | none => exact .ifFalse (hnone rfl) (.pure rfl)
  | some x =>
    obtain ⟨hp, h⟩ := hsome x rfl
    exact .ifTrue hp (.map h rfl)

/-- A repetition takes one item after the other, where every item can stand before the next. -/
theorem takes_repeatWhile (hitem : ∀ x ∈ xs, ∀ ks, F ks → Takes block limit item (g x) x ks)
    (hfirst : ∀ x ∈ xs, ∀ ks, p (head block (g x ++ ks)) = true ∧ F (g x ++ ks))
    (hk : F ks) (hstop : p (head block ks) = false) {n : Nat} (hn : n ≤ limit) :
    Takes block n (repeatWhile p item n) (xs.flatMap g) xs ks := by
  induction xs generalizing n with
  | nil =>
    cases n with
    | zero => exact .pure rfl
    | succ n => exact .ifFalse hstop (.pure rfl)
  | cons x xs ih =>
    cases n with
    | zero => exact fun hlen => absurd hlen (Nat.not_lt_zero _)
    | succ n =>
      have hne : g x ≠ [] := by
        intro hx
        have := (hfirst x (by simp) ks).1
        rw [hx, List.nil_append, hstop] at this
        cases this
      have hF : F (xs.flatMap g ++ ks) := by
        cases xs with
        | nil => exact hk
        | cons y ys =>
          rw [List.flatMap_cons, List.append_assoc]
          exact (hfirst y (by simp) _).2
      rw [List.flatMap_cons]
      refine .ifTrue ?_ (Takes.bind_succ ((hitem x (by simp) _ hF).mono hn) hne ?_)
      · rw [List.append_assoc]
        exact (hfirst x (by simp) _).1
      · exact .map (ih (fun y hy => hitem y (by simp [hy])) (fun y hy => hfirst y (by simp [hy]))
          (by omega)) rfl

section Enclosed
variable {opening close : Token.Kind} (hclose : close.isMark = true)
  (hitem : ∀ x ∈ xs, ∀ ks, F ks → Takes block limit item (g x) x ks)
  (hfirst : ∀ x ∈ xs, ∀ ks, first (g x ++ ks) ≠ close ∧ F (g x ++ ks))
  (hF : ∀ ks, F (mark close :: ks))
include hclose hitem hfirst hF

theorem takes_upTo : Takes block limit (upTo close item limit) (xs.flatMap g ++ [mark close]) xs ks := by
  refine Takes.bind (takes_repeatWhile hitem (fun x hx ks => ⟨?_, (hfirst x hx ks).2⟩) (hF ks)
    (by simp) le_rfl) (.map takes_expect rfl)
  simpa [kind_head_mark hclose] using (hfirst x hx ks).1

theorem takes_between_succ (hne : xs ≠ []) :
    Takes block (limit + 1) (between limit opening item close)
      (mark opening :: xs.flatMap g ++ [mark close]) xs ks := by
  obtain ⟨x, xs, rfl⟩ := List.exists_cons_of_ne_nil hne
  have hF' : ∀ ks, F (xs.flatMap g ++ mark close :: ks) := by
    intro ks
    cases xs with
    | nil => exact hF ks
    | cons y ys =>
      rw [List.flatMap_cons, List.append_assoc]
      exact (hfirst y (by simp) _).2
  rw [List.flatMap_cons, List.cons_append, List.append_assoc]
  refine Takes.bind_succ takes_expect (by simp) (Takes.bind (hitem x (by simp) _ ?_) (.map
    (takes_upTo hclose (fun y hy => hitem y (by simp [hy])) (fun y hy => hfirst y (by simp [hy])) hF) rfl))
  simpa using hF' ks

theorem takes_between (hne : xs ≠ []) :
    Takes block limit (between limit opening item close)
      (mark opening :: xs.flatMap g ++ [mark close]) xs ks :=
  (takes_between_succ hclose hitem hfirst hF hne).mono (Nat.le_succ limit)

theorem takes_optionalBetween (hopening : opening.isMark = true) (hk : xs = [] → first ks ≠ opening) :
    Takes block limit (optionalBetween limit opening item close) (enclosed opening close g xs) xs
      ks := by
  cases xs with
  | nil => exact .ifFalse (by simpa [kind_head_mark hopening] using hk rfl) (.pure rfl)
  | cons x xs =>
    exact .ifTrue (by simp [enclosed]) (takes_between hclose hitem hfirst hF (by simp))

end Enclosed

theorem takes_separated (hitem : ∀ x ∈ xs, ∀ ks, F ks → Takes block limit item (g x) x ks)
    (hF : ∀ ks, F (mark .pipe :: ks)) (hk : F ks) (hstop : first ks ≠ .pipe) (hne : xs ≠ []) :
    Takes block limit (separated limit .pipe item) (barred g xs) xs ks := by
  obtain ⟨x, xs, rfl⟩ := List.exists_cons_of_ne_nil hne
  have hF' : F ((xs.flatMap fun x => mark .pipe :: g x) ++ ks) := by
    cases xs with
    | nil => exact hk
    | cons y ys => exact hF _
  have hmore : ∀ x ∈ xs, ∀ ks, F ks →
      Takes block limit (do advance; item) (mark .pipe :: g x) x ks :=
    fun x hx ks h => .advance (hitem x (by simp [hx]) ks h)
  refine Takes.bind (hitem x (by simp) _ hF') (.map (takes_repeatWhile hmore
    (fun x _ ks => ⟨by simp, hF _⟩) hk ?_ le_rfl) rfl)
  simpa [kind_head_mark (k := .pipe) rfl] using hstop

end Repetition

end Rule

end QueryDocs
