import QueryDocs.Proofs.Grammar.Ends
import QueryDocs.Proofs.Parser.Takes

/-! # Parsers and rules over a stream

A parser stands where a rule over a token stream does if both look at the same token and the stream is what
the text gives on demand. From such places a run of the parser comes to an end, and it gives what the rule
gives, if the bound of the rule exceeds the number of tokens that can be taken (`Parser.Mirrors`). The lemmas
below follow the steps of a rule; those on loops are by induction on the number of tokens left, as each round
takes one (`Parser.mirrors_repeatWhile`, `Parser.mirrors_upTo`). -/

namespace QueryDocs.Parser

/-- A rule over a token stream stands where a parser does. -/
structure Matches (p : Parser) (c : Cursor) : Prop where
  current : c.current = p.current
  lastStop : c.lastStop = p.lastStop
  follows : c.rest.Follows p.source p.current

/-- The answer of a parser is that of a rule, and both stand in the same place behind it. -/
def Same {α : Type} : Except ParseFault α × Parser → Except ParseFault (α × Cursor) → Prop
  | (.ok x, q), .ok (x', d) => x' = x ∧ q.Matches d
  | (.error f, _), .error f' => f' = f
  | _, _ => False

/-- **A run of a parser comes to an end and gives what a rule gives**, and it takes at least some number of
tokens if it has a result. -/
def Mirrors {α : Type} (n : Nat) (r : Action α) (r' : Rule α) (p : Parser) (c : Cursor) : Prop :=
  ∃ y, r p = some y ∧ Moves n p y ∧ Same y (r' c)

/-- A parser stands where a rule does, and fewer tokens are left than a bound says. -/
structure At (l : Nat) (p : Parser) (c : Cursor) : Prop where
  within : p.Within l
  agree : p.Matches c

section Steps
variable {α β : Type} {p q : Parser} {c d : Cursor} {l n m : Nat} {r : Action α} {r' : Rule α}
  {k : α → Action β} {k' : α → Rule β} {t : Token → Bool} {x : α} {ts : List Token}

theorem At.mono (h : At n p c) (hnl : n ≤ l) : At l p c := ⟨h.within.mono hnl, h.agree⟩

/-! ### Steps -/

theorem bind_ok (h : r p = some (.ok x, q)) : (r >>= k) p = k x q := by
  change (r p >>= _) = _
  rw [h]
  rfl

theorem bind_error {f : ParseFault} (h : r p = some (.error f, q)) :
    (r >>= k) p = some (.error f, q) := by
  change (r p >>= _) = _
  rw [h]
  rfl

theorem Moves.le (h : Moves n p (y : Except ParseFault α × Parser)) (hm : m ≤ n) : Moves m p y := by
  cases h with
  | ok h hn => exact .ok h (hm.trans hn)
  | unexpected h => exact .unexpected h
  | lexical h he hq => exact .lexical h he hq

/-- A run behind tokens that were taken. -/
theorem Moves.behind (ht : p.Takes ts q) {y : Except ParseFault β × Parser} (h : Moves n q y) :
    Moves (ts.length + n) p y := by
  cases h with
  | ok h hn => exact .ok (ht.append h) (by rw [List.length_append]; omega)
  | unexpected h => exact .unexpected (ht.append h)
  | lexical h he hq => exact .lexical (ht.append h) he hq

theorem Mirrors.le (h : Mirrors n r r' p c) (hm : m ≤ n) : Mirrors m r r' p c := by
  obtain ⟨y, hy, hmoves, hsame⟩ := h
  exact ⟨y, hy, hmoves.le hm, hsame⟩

theorem Mirrors.zero (h : Mirrors n r r' p c) : Mirrors 0 r r' p c := h.le (Nat.zero_le n)

theorem Mirrors.pure (hp : At l p c) (x : α) : Mirrors 0 (pure x) (pure x) p c :=
  ⟨_, rfl, .ok (.nil p) (Nat.le_refl 0), rfl, hp.agree⟩

theorem Mirrors.fail (hp : At l p c) (e : Expectation) :
    Mirrors n (fail e : Action α) (Rule.fail e) p c := by
  refine ⟨_, rfl, .unexpected (.nil p), ?_⟩
  change ParseFault.unexpected e c.current = _
  rw [hp.agree.current]

theorem Mirrors.bind_within (h : Mirrors m r r' p c)
    (hk : ∀ x ts q d, p.Takes ts q → m ≤ ts.length → q.Matches d → Mirrors n (k x) (k' x) q d) :
    Mirrors (m + n) (r >>= k) (r' >>= k') p c := by
  obtain ⟨⟨y, q⟩, hy, hmoves, hsame⟩ := h
  cases hc : r' c with
  | error f =>
    rw [hc] at hsame
    cases hmoves with
    | ok => exact hsame.elim
    | unexpected ht =>
      cases (show f = _ from hsame)
      exact ⟨_, bind_error hy, .unexpected ht, by rw [Rule.bind_error hc]; exact rfl⟩
    | lexical ht he hq =>
      cases (show f = _ from hsame)
      exact ⟨_, bind_error hy, .lexical ht he hq, by rw [Rule.bind_error hc]; exact rfl⟩
  | ok z =>
    rw [hc] at hsame
    cases hmoves with
    | @ok x ts _ ht hm =>
      obtain ⟨x', d⟩ := z
      obtain ⟨rfl, hd⟩ := hsame
      obtain ⟨y', hy', hmoves', hsame'⟩ := hk x' ts q d ht hm hd
      exact ⟨y', (bind_ok hy).trans hy', (hmoves'.behind ht).le (by omega),
        by rwa [Rule.bind_ok hc]⟩
    | unexpected => exact hsame.elim
    | lexical => exact hsame.elim

/-- One rule after the other, where the first one takes as many tokens as are asked for. -/
theorem Mirrors.bind (hp : At l p c) (h : Mirrors m r r' p c)
    (hk : ∀ x q d, At l q d → Mirrors 0 (k x) (k' x) q d) : Mirrors m (r >>= k) (r' >>= k') p c :=
  h.bind_within fun x _ q d ht _ hd =>
    hk x q d ⟨Within.takes (m := 0) hp.within ht (Nat.zero_le _), hd⟩

/-- One rule after the other, where the second one does. -/
theorem Mirrors.after (hp : At l p c) (h : Mirrors m r r' p c)
    (hk : ∀ x q d, At l q d → Mirrors n (k x) (k' x) q d) : Mirrors n (r >>= k) (r' >>= k') p c :=
  (h.bind_within fun x _ q d ht _ hd =>
    hk x q d ⟨Within.takes (m := 0) hp.within ht (Nat.zero_le _), hd⟩).le (Nat.le_add_left n m)

/-- Behind a token that is taken, fewer are left. -/
theorem Mirrors.bind_pred (hp : At (l + 1) p c) (h : Mirrors 1 r r' p c)
    (hk : ∀ x q d, At l q d → Mirrors 0 (k x) (k' x) q d) : Mirrors 1 (r >>= k) (r' >>= k') p c :=
  h.bind_within fun x _ q d ht hm hd => hk x q d ⟨hp.within.takes ht hm, hd⟩

theorem Mirrors.map (hp : At l p c) (h : Mirrors n r r' p c) {f : α → β} :
    Mirrors n (r >>= fun x => Pure.pure (f x)) (r' >>= fun x => Pure.pure (f x)) p c :=
  .bind hp h fun _ _ _ hq => .pure hq _

theorem Mirrors.getLeft {k : Bool → Action β} {r' : Rule β} (h : Mirrors n (k (t p.current)) r' p c) :
    Mirrors n (atToken t >>= k) r' p c := h

theorem Mirrors.getRight {r : Action β} {f' : Cursor → Rule β} (h : Mirrors n r (f' c) p c) :
    Mirrors n r (get >>= f') p c := h

theorem Mirrors.get {f : Parser → Action β} {f' : Cursor → Rule β}
    (h : Mirrors n (f p) (f' c) p c) : Mirrors n (get >>= f) (get >>= f') p c := h

theorem Mirrors.ite {b : Bool} {a e : Action β} {a' e' : Rule β} (ht : b = true → Mirrors n a a' p c)
    (hf : b = false → Mirrors n e e' p c) :
    Mirrors n (if b = true then a else e) (if b = true then a' else e') p c := by
  cases b with
  | true => exact ht rfl
  | false => exact hf rfl

theorem Mirrors.ifToken (hp : At l p c) {a e : Action β} {a' e' : Rule β}
    (ht : t p.current = true → Mirrors n a a' p c) (hf : t p.current = false → Mirrors n e e' p c) :
    Mirrors n (atToken t >>= fun b => if b = true then a else e)
      (Rule.atToken t >>= fun b => if b = true then a' else e') p c := by
  refine .getLeft (.getRight ?_)
  rw [hp.agree.current]
  exact .ite ht hf

end Steps

/-! ### Single tokens -/

section Tokens
variable {α β : Type} {p : Parser} {c : Cursor} {l n : Nat} {w : String} {kind : Token.Kind}

theorem mirrors_advance (hp : At l p c) (he : p.current.isEnd = false) :
    Mirrors 1 advance Rule.advance p c := by
  obtain ⟨hcurrent, hstop, hfollows⟩ := hp.agree
  have hadvance := TokenStream.Follows.advance (s := p.source) (c := c) (by rwa [hcurrent])
  rw [hcurrent] at hadvance
  cases hnext : p.source.next p.current with
  | error e =>
    rw [hnext] at hadvance
    exact ⟨_, advance_of_error hnext, .lexical (.nil p) he hnext, by rw [hadvance]; exact rfl⟩
  | ok u =>
    rw [hnext] at hadvance
    obtain ⟨d, hd, rfl, hrest⟩ := hadvance
    have hlast : d.lastStop = p.current.span.stop := by
      rcases Cursor.advance_eq_ok hd with ⟨_, -, rfl⟩ | ⟨_, _, -, rfl⟩ <;>
        exact congrArg (·.span.stop) hcurrent
    have hrun := advance_of_ok hnext
    refine ⟨_, hrun, .ok (.cons he hrun (.nil _)) le_rfl, ?_⟩
    rw [hd]
    exact ⟨rfl, rfl, hlast, hrest⟩

theorem mirrors_start (hp : At l p c) : Mirrors 0 start Rule.start p c := by
  refine .get ?_
  rw [hp.agree.current]
  exact .pure hp _

theorem mirrors_spanFrom (hp : At l p c) (n : Nat) : Mirrors 0 (spanFrom n) (Rule.spanFrom n) p c := by
  refine .get ?_
  rw [hp.agree.lastStop]
  exact .pure hp _

/-- The last part of a node, and the span that ends with it. -/
theorem Mirrors.spanned {r : Action α} {r' : Rule α} {f : α → Span → β} {start : Nat} (hp : At l p c)
    (h : Mirrors n r r' p c) :
    Mirrors n (r >>= fun x => spanFrom start >>= fun s => Pure.pure (f x s))
      (r' >>= fun x => Rule.spanFrom start >>= fun s => Pure.pure (f x s)) p c :=
  .bind hp h fun _ _ _ hq => .map hq (mirrors_spanFrom hq start)

theorem isEnd_of_kind {t : Token} (hk : kind ≠ .endOfText) (h : (t.kind == kind) = true) :
    t.isEnd = false := by
  have ht : t.kind = kind := by simpa using h
  simp [Token.isEnd, ht, hk]

theorem isEnd_of_word {t : Token} (h : t.isWord w = true) : t.isEnd = false := by
  rw [Token.isWord, Bool.and_eq_true] at h
  exact isEnd_of_kind (by decide) h.1

theorem mirrors_expect (hp : At l p c) (hk : kind ≠ .endOfText) :
    Mirrors 1 (expect kind) (Rule.expect kind) p c :=
  .ifToken hp (fun h => mirrors_advance hp (isEnd_of_kind hk h)) fun _ => .fail hp _

theorem mirrors_expectWord (hp : At l p c) (w : String) :
    Mirrors 1 (expectWord w) (Rule.expectWord w) p c :=
  .ifToken hp (fun h => mirrors_advance hp (isEnd_of_word h)) fun _ => .fail hp _

/-- Where a rule is chosen by a word, the word need not be checked again. -/
theorem mirrors_word (hp : At l p c) (hw : p.current.isWord w = true) :
    Mirrors 1 (expectWord w) Rule.advance p c := by
  obtain ⟨y, hy, hmoves, hsame⟩ := mirrors_advance hp (isEnd_of_word hw)
  refine ⟨y, ?_, hmoves, hsame⟩
  change (if p.current.isWord w = true then advance else fail (.word w)) p = _
  rw [if_pos hw, hy]

theorem mirrors_accept (hp : At l p c) (hk : kind ≠ .endOfText) :
    Mirrors 0 (accept kind) (Rule.accept kind) p c :=
  .ifToken hp (fun h => (Mirrors.map hp (mirrors_advance hp (isEnd_of_kind hk h))).zero)
    fun _ => .pure hp _

theorem mirrors_name (hp : At l p c) : Mirrors 1 name Rule.name p c := by
  refine .get ?_
  rw [hp.agree.current]
  refine .ite (fun h => ?_) fun _ => .fail hp _
  exact .map hp (mirrors_advance hp (isEnd_of_kind (by decide) h))

theorem mirrors_keyword (ofKeyword? : String → Option α) (e : Expectation) (hp : At l p c) :
    Mirrors 1 (keyword ofKeyword? e) (Rule.keyword ofKeyword? e) p c := by
  refine .get ?_
  rw [hp.agree.current]
  dsimp only
  cases hname : p.current.kind == .name with
  | false => exact .fail hp _
  | true =>
    simp only [if_true]
    cases ofKeyword? p.current.text with
    | none => exact .fail hp _
    | some x => exact .map hp (mirrors_advance hp (isEnd_of_kind (by decide) hname))

theorem mirrors_optional {t : Token → Bool} {r : Action α} {r' : Rule α} (hp : At l p c)
    (h : t p.current = true → Mirrors n r r' p c) :
    Mirrors 0 (optional t r) (Rule.optional t r') p c :=
  .ifToken hp (fun ht => (Mirrors.map hp (h ht)).zero) fun _ => .pure hp _

theorem optional_bind {t : Token → Bool} {r : Action α} {k : Option α → Action β} :
    (optional t r >>= k) = (atToken t >>= fun b =>
      if b = true then r >>= fun x => k (some x) else k none) := by
  simp only [optional, bind_assoc]
  congr
  funext b
  cases b <;> simp

theorem accept_bind (k : Bool → Action β) :
    (accept kind >>= k) = (atToken (·.kind == kind) >>= fun b =>
      if b = true then advance >>= fun _ => k true else k false) := by
  simp only [accept, atKind, bind_assoc]
  congr
  funext b
  cases b <;> simp

/-- Taking a token of a class, which leaves fewer of them, or not. -/
theorem Mirrors.accept_pred {k : Bool → Action β} {k' : Bool → Rule β} (hp : At (l + 1) p c)
    (hk : kind ≠ .endOfText) (ht : ∀ q d, At l q d → Mirrors n (k true) (k' true) q d)
    (hf : Mirrors n (k false) (k' false) p c) :
    Mirrors n (accept kind >>= k) (Rule.accept kind >>= k') p c := by
  rw [accept_bind, Rule.accept_bind]
  refine .ifToken hp (fun h => ?_) fun _ => hf
  have hadvance := mirrors_advance hp (isEnd_of_kind hk h)
  exact (hadvance.bind_within fun _ ts q d hq hn hd => ht q d ⟨hp.within.takes hq hn, hd⟩).le
    (Nat.le_add_left n 1)

theorem Mirrors.accept {k : Bool → Action β} {k' : Bool → Rule β} (hp : At l p c)
    (hk : kind ≠ .endOfText) (ht : ∀ q d, At l q d → Mirrors n (k true) (k' true) q d)
    (hf : Mirrors n (k false) (k' false) p c) :
    Mirrors n (accept kind >>= k) (Rule.accept kind >>= k') p c :=
  .accept_pred (hp.mono (Nat.le_succ l)) hk ht hf

end Tokens

/-! ### Loops -/

/-- A loop with its round. -/
def Repeats {α : Type} (round : Action (Option α)) (all : Action (List α)) : Prop :=
  all = (do
    match ← round with
    | none => return []
    | some x =>
      let xs ← all
      return x :: xs)

section Loops
variable {α : Type} {p : Parser} {c : Cursor} {l n : Nat} {t : Token → Bool} {mark close : Token.Kind}
  {item : Action α} {item' : Rule α} {all : Action (List α)}

theorem repeats_loop (round : Action (Option α)) : Repeats round (loop round) := loop.eq_1 round

theorem roundBehind_eq (mark : Token.Kind) (item : Action α) :
    roundBehind mark item = roundWhile (·.kind == mark) (do advance; item) := by
  rw [roundBehind, accept_bind]
  simp only [roundWhile, optional, bind_assoc]
  rfl

theorem repeats_while (h : Repeats (roundWhile t item) all) :
    all = (atToken t >>= fun b => if b = true then item >>= fun x => all >>= fun xs => pure (x :: xs)
      else pure []) := by
  conv_lhs => rw [h]
  simp only [roundWhile, optional, bind_assoc]
  congr
  funext b
  cases b <;> simp

theorem repeats_until : Repeats (roundUntil close item) all ↔
    all = (accept close >>= fun b => if b = true then pure []
      else item >>= fun x => all >>= fun xs => pure (x :: xs)) := by
  unfold Repeats
  apply Eq.congr_right
  simp only [roundUntil, bind_assoc]
  congr
  funext b
  cases b <;> simp

theorem upTo_succ (close : Token.Kind) (item : Rule α) (n : Nat) :
    Rule.upTo close item (n + 1) = (Rule.accept close >>= fun b => if b = true then pure []
      else item >>= fun x => Rule.upTo close item n >>= fun xs => pure (x :: xs)) := by
  funext c
  rw [Rule.accept_bind]
  change ((if (c.current.kind != close) = true then
      item >>= fun x => Rule.repeatWhile (fun t => t.kind != close) item n >>= fun xs => pure (x :: xs)
    else pure []) >>= fun xs => Rule.expect close >>= fun _ => pure xs) c =
    (if (c.current.kind == close) = true then Rule.advance >>= fun _ => pure []
    else item >>= fun x => Rule.upTo close item n >>= fun xs => pure (x :: xs)) c
  cases h : c.current.kind == close with
  | true =>
    have hexpect : (Rule.expect close >>= fun _ => (pure [] : Rule (List α))) c =
        ((if (c.current.kind == close) = true then Rule.advance else Rule.fail (.kind close)) >>=
          fun _ => (pure [] : Rule (List α))) c := rfl
    simp only [bne, h, Bool.not_true, Bool.false_eq_true, if_false, if_true, pure_bind]
    rw [hexpect, h, if_pos rfl]
  | false =>
    simp only [bne, h, Bool.not_false, Bool.false_eq_true, if_true, if_false, bind_assoc, pure_bind,
      Rule.upTo]

/-- **A loop that goes on while a token has a property** goes round as a bounded one does. -/
theorem mirrors_repeatWhile (hall : Repeats (roundWhile t item) all)
    (hitem : ∀ {q d}, At l q d → t q.current = true → Mirrors 1 item item' q d) (hnl : n ≤ l)
    (hp : At n p c) : Mirrors 0 all (Rule.repeatWhile t item' n) p c := by
  induction n generalizing p c with
  | zero => exact absurd hp.within.pos (Nat.lt_irrefl 0)
  | succ n ih =>
    rw [repeats_while hall, Rule.repeatWhile]
    refine .ifToken hp (fun ht => ?_) fun _ => .pure hp _
    -- the round has taken a token, so one round less is enough for what is left
    refine (Mirrors.bind_pred hp (hitem (hp.mono hnl) ht) fun x q d hq => ?_).zero
    exact .map hq (ih (Nat.le_of_succ_le hnl) hq)

/-- **A loop that goes on up to a closing token** goes round as a bounded one does. -/
theorem mirrors_upTo (hclose : close ≠ .endOfText) (hall : Repeats (roundUntil close item) all)
    (hitem : ∀ {q d}, At l q d → Mirrors 1 item item' q d) (hnl : n ≤ l) (hp : At n p c) :
    Mirrors 0 all (Rule.upTo close item' n) p c := by
  induction n generalizing p c with
  | zero => exact absurd hp.within.pos (Nat.lt_irrefl 0)
  | succ n ih =>
    rw [repeats_until.mp hall, upTo_succ]
    refine .accept hp hclose (fun q d hq => .pure hq _) ?_
    refine (Mirrors.bind_pred hp (hitem (hp.mono hnl)) fun x q d hq => ?_).zero
    exact .map hq (ih (Nat.le_of_succ_le hnl) hq)

variable (hitem : ∀ {q d}, At l q d → Mirrors 1 item item' q d)
include hitem

theorem mirrors_many {opening : Token.Kind} (hopening : opening ≠ .endOfText)
    (hclose : close ≠ .endOfText) (hp : At l p c) :
    Mirrors 1 (many opening item close) (Rule.between l opening item' close) p c := by
  refine .bind hp (mirrors_expect hp hopening) fun _ q d hq => ?_
  refine .after hq (hitem hq) fun first r e hr => ?_
  exact .map hr (mirrors_upTo hclose (repeats_loop _) hitem le_rfl hr)

theorem mirrors_optionalMany {opening : Token.Kind} (hopening : opening ≠ .endOfText)
    (hclose : close ≠ .endOfText) (hp : At l p c) :
    Mirrors 0 (optionalMany opening item close) (Rule.optionalBetween l opening item' close) p c :=
  .ifToken hp (fun _ => (mirrors_many hitem hopening hclose hp).zero) fun _ => .pure hp _

theorem mirrors_repeatBehind (hmark : mark ≠ .endOfText) (hp : At l p c) :
    Mirrors 0 (loop (roundBehind mark item))
      (Rule.repeatWhile (·.kind == mark) (do Rule.advance; item') l) p c := by
  rw [roundBehind_eq]
  refine mirrors_repeatWhile (repeats_loop _) (fun hq ht => ?_) le_rfl hp
  exact .after hq (mirrors_advance hq (isEnd_of_kind hmark ht)) fun _ _ _ hr => hitem hr

theorem mirrors_separated (hmark : mark ≠ .endOfText) (hp : At l p c) :
    Mirrors 1 (separated mark item) (Rule.separated l mark item') p c := by
  refine .bind hp (hitem hp) fun first q d hq => ?_
  exact .map hq (mirrors_repeatBehind hitem hmark hq)

end Loops

end QueryDocs.Parser
