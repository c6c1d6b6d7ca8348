import QueryDocs.Proofs.Grammar.LookaheadDocument
import QueryDocs.Proofs.Grammar.Whole

/-! # Runs of definitions

A `Run` reads definitions one after the other up to the end of a text. Unlike `Rule.definitions` it
has no bound of its own, so runs can be put together: what a run reads is read again in front of
another run, unless its last definition would take a body from there (`Run.append`). -/

namespace QueryDocs.Rule

/-- Definitions are read one after the other up to the end of a text. -/
inductive Run (limit : Nat) : Cursor → List Definition → Cursor → Prop where
  | nil {c : Cursor} (he : c.current.isEnd = true) : Run limit c [] c
  | cons {c d e : Cursor} {x : Definition} {xs : List Definition} (he : c.current.isEnd = false)
      (hx : definition limit c = .ok (x, d)) (hxs : Run limit d xs e) : Run limit c (x :: xs) e

section Run
variable {limit limit' n : Nat} {c c' d d' e e' : Cursor} {x : Definition} {xs ys : List Definition}
  {φ : Nat → Nat} {ts : List Token}

/-- Definitions are taken from the tokens at hand. -/
theorem passes_of_definition (hc : c.Within limit) (h : definition limit c = .ok (x, d)) :
    ∃ ts, ts ≠ [] ∧ c.Passes ts d ∧ d.Within limit := by
  obtain ⟨ts, hne, hp, -⟩ := covers_of_definition hc h
  exact ⟨ts, hne, hp, hc.passes hp⟩

theorem run_of_definitions (hn : n ≤ limit) (hc : c.Within n)
    (h : repeatWhile (fun t => !t.isEnd) (definition limit) n c = .ok (xs, d)) :
    Run limit c xs d := by
  induction n generalizing c xs with
  | zero => exact absurd hc.bound (Nat.not_lt_zero _)
  | succ n ih =>
    rw [repeatWhile] at h
    obtain ⟨b, _, hb, h⟩ := bind_eq_ok h
    cases hb
    cases he : c.current.isEnd with
    | true =>
      simp only [he, Bool.not_true, Bool.false_eq_true, if_false] at h
      cases h
      exact .nil he
    | false =>
      simp only [he, Bool.not_false, if_true] at h
      obtain ⟨x, c', hx, h⟩ := bind_eq_ok h
      obtain ⟨xs, _, hxs, h⟩ := bind_eq_ok h
      cases h
      obtain ⟨ts, hne, hp, -⟩ := passes_of_definition (hc.mono hn) hx
      exact .cons he hx (ih (by omega) (hc.pred hp hne) hxs)

/-- The bound of a repetition is never reached. -/
theorem Run.definitions (h : Run limit c xs d) (hn : n ≤ limit) (hc : c.Within n) :
    repeatWhile (fun t => !t.isEnd) (definition limit) n c = .ok (xs, d) := by
  induction h generalizing n with
  | @nil c he =>
    cases n with
    | zero => rfl
    | succ n =>
      have hchoice : repeatWhile (fun t => !t.isEnd) (definition limit) (n + 1) c =
          (if (!c.current.isEnd) = true then _ else Pure.pure [] : Rule (List Definition)) c := rfl
      rw [hchoice, he]
      rfl
  | @cons c d e x xs he hx _ ih =>
    cases n with
    | zero => exact absurd hc.bound (Nat.not_lt_zero _)
    | succ n =>
      obtain ⟨ts, hne, hp, -⟩ := passes_of_definition (hc.mono hn) hx
      have hrest := ih (by omega) (hc.pred hp hne)
      have hchoice : repeatWhile (fun t => !t.isEnd) (definition limit) (n + 1) c =
          (if (!c.current.isEnd) = true then (definition limit >>= fun x =>
            repeatWhile (fun t => !t.isEnd) (definition limit) n >>= fun xs => Pure.pure (x :: xs))
            else _ : Rule (List Definition)) c := rfl
      rw [hchoice, he, if_pos (by rfl), bind_ok hx, bind_ok hrest]
      rfl

theorem Run.isEnd (h : Run limit c xs d) : d.current.isEnd = true := by
  induction h with
  | nil he => exact he
  | cons _ _ _ ih => exact ih

theorem Run.outside (h : Run limit c xs d) : Outside c.current := by
  cases h with
  | nil he => exact outside_of_isEnd he
  | cons _ hx _ => exact outside_of_definition hx

/-- A definition is read from the same tokens everywhere, with the offsets that they have there. -/
theorem definition_move (hφ : Monotone φ) (hc : c.Within limit) (h : definition limit c = .ok (x, d))
    (hp : c.Passes ts d) (ht : c.Tracks φ limit' ts d c' d') :
    definition limit' c' = .ok (relabel (.move φ) x, d') := by
  have hreads : Reads φ limit' (definition limit) (definition limit') c _ := reads_definition hφ hc
  obtain ⟨us, hus, -, hsame⟩ := hreads.ok h
  obtain rfl := hus.unique hp hc
  exact hsame c' d' ht

/-- A run depends on nothing before it. -/
theorem Run.fresh (h : Run limit c xs d) (n : Nat) : ∃ e, Run limit ⟨c.current, c.rest, n⟩ xs e := by
  cases h with
  | nil he => exact ⟨_, .nil he⟩
  | cons he hx hxs => exact ⟨d, .cons he ((fresh_definition _ _ _ c.lastStop).trans hx) hxs⟩

/-- A run is one on every stream with the same tokens, up to the offsets. -/
theorem Run.move (h : Run limit c xs d) (hφ : Monotone φ) (hc : c.Within limit) (limit' : Nat) :
    ∃ ts, c.Passes ts d ∧ ∀ c' d', c.Tracks φ limit' ts d c' d' →
      Run limit' c' (relabel (.move φ) xs) d' := by
  have hreads : Reads φ limit' (Rule.definitions limit) (Rule.definitions limit') c _ :=
    reads_definitions hφ hc
  obtain ⟨ts, hp, -, hsame⟩ := hreads.ok (h.definitions le_rfl hc)
  exact ⟨ts, hp, fun c' d' ht => run_of_definitions le_rfl ht.within (hsame c' d' ht)⟩

/-- What is read does not depend on the bound. -/
theorem Run.bound (h : Run limit c xs d) (hc : c.Within limit) (hc' : c.Within limit') :
    Run limit' c xs d := by
  have hreads : Reads id limit (Rule.definitions limit) (Rule.definitions limit) c _ :=
    reads_definitions monotone_id hc
  obtain ⟨ts, hp, hsame⟩ := h.move monotone_id hc limit'
  have hid : ts.map (Token.move id) = ts := List.map_id ts
  have hrun := hsame c d ⟨hc', ⟨rfl, rfl⟩, by rwa [hid], ⟨rfl, rfl⟩⟩
  rwa [hreads.relabel_id hc (h.definitions le_rfl hc)] at hrun

/-- **A run goes on with another run**, unless its last definition lacks a body and a brace follows. -/
theorem Run.append (h : Run limit c xs d) (hc : c.Within limit) :
    ∃ ts, c.Passes ts d ∧ ∀ c' d', c'.Within limit → c'.lastStop = c.lastStop → c'.Passes ts d' →
      (∀ x ∈ xs.getLast?, x.lacksBody = true → d'.current.kind ≠ .leftBrace) →
      ∀ ys e, Run limit d' ys e → Run limit c' (xs ++ ys) e := by
  induction h with
  | nil he =>
    refine ⟨[], .nil _, fun c' d' _ _ hp _ ys e hys => ?_⟩
    cases hp
    exact hys
  | @cons c d e x xs he hx hxs ih =>
    obtain ⟨ts, hp, hsame⟩ := firm_definition.indifferent hc x d hx
    obtain ⟨us, hps, hmore⟩ := ih (hc.passes hp)
    refine ⟨ts ++ us, hp.append hps, fun c' e' hc' hlast hpass hbody ys f hys => ?_⟩
    obtain ⟨d', hp', hps'⟩ := hpass.split
    have hlast' : d'.lastStop = d.lastStop := by rw [hp'.lastStop, hp.lastStop, hlast]
    have hbehind : d'.current = d.current ∨
        Behind x.lacksBody d.current ∧ Behind x.lacksBody d'.current := by
      cases us with
      | cons u us => exact Or.inl (by rw [hps'.current, hps.current]; rfl)
      | nil =>
        -- the definition is the last one
        cases hps
        cases hps'
        obtain rfl : xs = [] := by
          cases hxs with
          | nil => rfl
          | cons he _ hxs => rw [hxs.isEnd] at he; cases he
        exact Or.inr ⟨⟨outside_of_isEnd hxs.isEnd, (ends_definition hx).2⟩,
          ⟨hys.outside, hbody x rfl⟩⟩
    have hx' := hsame c' d' ⟨hc', hlast, hp', hbehind⟩
    have he' : c'.current.isEnd = false := by
      have hne := firm_definition.ne_nil hc hx hp
      rwa [Cursor.Alike.current ⟨hc', hlast, hp', hbehind⟩ hp hne]
    refine .cons he' hx' (hmore d' e' (hc'.passes hp') hlast' hps' (fun y hy => hbody y ?_) ys f hys)
    cases xs with
    | nil => simp at hy
    | cons z zs => rwa [List.getLast?_cons_cons]

/-- A definition of a run is read somewhere in it, and a run is left behind it. -/
theorem Run.of_mem (h : Run limit c xs d) (hc : c.Within limit) (hx : x ∈ xs) :
    ∃ before behind c' d' ys, c.Passes before c' ∧ definition limit c' = .ok (x, d') ∧
      d'.Passes behind d ∧ Run limit d' ys d := by
  induction h with
  | nil => cases hx
  | @cons c d e y xs he hy hxs ih =>
    obtain ⟨ts, hne, hp, hd⟩ := passes_of_definition hc hy
    rcases List.mem_cons.mp hx with rfl | hx
    · obtain ⟨us, hps, -⟩ := hxs.append hd
      exact ⟨[], us, c, d, xs, .nil c, hy, hps, hxs⟩
    · obtain ⟨before, behind, c', d', ys, hp', hx', hps', hys⟩ := ih hd hx
      exact ⟨ts ++ before, behind, c', d', ys, hp.append hp', hx', hps', hys⟩

end Run

end QueryDocs.Rule
