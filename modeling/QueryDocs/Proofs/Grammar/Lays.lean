import QueryDocs.Proofs.Document.Node
import QueryDocs.Proofs.Grammar.DefinitionRuns

/-! # Where nodes lie

A node is `Placed` over tokens if its span covers them and its children are placed over stretches of
them, one behind the other. `Lays` says of a rule that the nodes of its result lie over the tokens it
takes; `Builds` says of the rest of a rule that it makes one node of the nodes gathered so far and of
those to come. -/

namespace QueryDocs

/-! ### Nodes over tokens -/

/-- A span goes from the first of some tokens to the last one. -/
def Span.Covers (s : Span) (ts : List Token) : Prop :=
  ∃ first ∈ ts.head?, ∃ last ∈ ts.getLast?, s.start = first.span.start ∧
    (first.span.start ≤ last.span.stop → s.stop = last.span.stop)

mutual

/-- A node covers tokens, a leaf a single one, and its children lie over them. -/
inductive Node.Placed : Node → List Token → Prop where
  | intro {n : Node} {ts : List Token} (covers : n.span.Covers ts)
      (leaf : ∀ l ∈ n.lexeme?, ts.map Token.lexeme = [l]) (children : Node.Laid n.children ts) :
      Node.Placed n ts

/-- Nodes lie over tokens, one behind the other. -/
inductive Node.Laid : List Node → List Token → Prop where
  | nil (ts : List Token) : Node.Laid [] ts
  | cons {n : Node} {ns : List Node} {ts us : List Token} (gap : List Token) (first : Node.Placed n ts)
      (rest : Node.Laid ns us) : Node.Laid (n :: ns) (gap ++ ts ++ us)

end

namespace Node

variable {n : Node} {ns ms : List Node} {ts us : List Token}

theorem Placed.laid (h : Placed n ts) : Laid [n] ts := by
  have hlaid := Laid.cons [] h (.nil [])
  rwa [List.nil_append, List.append_nil] at hlaid

theorem Placed.leaf {t : Token} (hspan : n.span = t.span) (hlexeme : ∀ l ∈ n.lexeme?, t.lexeme = l)
    (hchildren : n.children = []) : Placed n [t] := by
  refine .intro ⟨t, rfl, t, rfl, by rw [hspan], fun _ => by rw [hspan]⟩ (fun l hl => ?_) ?_
  · rw [List.map_singleton, hlexeme l hl]
  · rw [hchildren]
    exact .nil _

theorem Placed.covers (h : Placed n ts) : n.span.Covers ts := by
  cases h with
  | intro covers => exact covers

theorem Placed.laid_children (h : Placed n ts) : Laid n.children ts := by
  cases h with
  | intro _ _ children => exact children

theorem Laid.append_left (us : List Token) (h : Laid ns ts) : Laid ns (us ++ ts) := by
  cases h with
  | nil => exact .nil _
  | cons gap h hs =>
    rw [← List.append_assoc, ← List.append_assoc]
    exact .cons (us ++ gap) h hs

theorem Laid.append : {ns : List Node} → {ts : List Token} → Laid ns ts → Laid ms us →
    Laid (ns ++ ms) (ts ++ us)
  | _, _, .nil ts, h' => h'.append_left ts
  | _, _, .cons gap h hs, h' => by
    rw [List.append_assoc]
    exact .cons gap h (Laid.append hs h')

theorem Laid.append_right (us : List Token) (h : Laid ns ts) : Laid ns (ts ++ us) := by
  have hlaid := h.append (.nil us)
  rwa [List.append_nil] at hlaid

theorem Laid.ne_nil (h : Laid ns ts) (hns : ns ≠ []) : ts ≠ [] := by
  cases h with
  | nil => exact absurd rfl hns
  | cons gap h hs =>
    obtain ⟨t, ht, -⟩ := h.covers
    rintro h
    simp_all

end Node

namespace Rule

open Node (Placed Laid)

/-- The tokens that a rule takes and its result are related. -/
def Leads {α : Type} (limit : Nat) (Q : α → List Token → Prop) (r : Rule α) (c : Cursor) : Prop :=
  c.Within limit → ∀ x d, r c = .ok (x, d) → ∃ ts, c.Passes ts d ∧ Q x ts

/-- The nodes of what a rule reads lie over the tokens that it takes. -/
abbrev Lays {α : Type} (limit : Nat) (N : α → List Node) : Rule α → Cursor → Prop :=
  Leads limit fun x ts => Laid (N x) ts

/-- Nodes were gathered from tokens that start at an offset, up to a place. -/
structure Gathered (start : Nat) (ns : List Node) (us : List Token) (c : Cursor) : Prop where
  laid : Laid ns us
  first : (us.head?.getD c.current).span.start = start
  last : ∀ t ∈ us.getLast?, c.lastStop = t.span.stop

/-- A rule makes a node of the nodes that were gathered and of what it reads. Whether a token was taken
before it is given. -/
def Builds {α : Type} (limit : Nat) (N : α → Node) (start : Nat) (taken : Prop) (ns : List Node)
    (r : Rule α) (c : Cursor) : Prop :=
  ∀ us, Gathered start ns us c → (taken → us ≠ []) → Leads limit (fun x ts => Laid [N x] (us ++ ts)) r c

section Steps
variable {α β : Type} {limit : Nat} {c : Cursor} {r a b : Rule α} {k : α → Rule β}
  {P : α → List Token → Prop} {Q : β → List Token → Prop}

theorem Leads.bind (h : Leads limit P r c)
    (hk : ∀ x d ts, c.Passes ts d → P x ts → Leads limit (fun y us => Q y (ts ++ us)) (k x) d) :
    Leads limit Q (r >>= k) c := by
  intro hc y e hr
  obtain ⟨x, d, h1, h2⟩ := bind_eq_ok hr
  obtain ⟨ts, hp, hx⟩ := h hc x d h1
  obtain ⟨us, hp', hy⟩ := hk x d ts hp hx (hc.passes hp) y e h2
  exact ⟨ts ++ us, hp.append hp', hy⟩

theorem Leads.pure {x : α} (h : P x []) : Leads limit P (pure x) c := by
  intro _ y d hr
  cases hr
  exact ⟨[], .nil c, h⟩

theorem Leads.fail {e : Expectation} : Leads limit P (fail e : Rule α) c := by
  intro _ x d hr
  cases hr

theorem Leads.imp {P' : α → List Token → Prop} (h : Leads limit P r c) (hP : ∀ x ts, P x ts → P' x ts) :
    Leads limit P' r c := by
  intro hc x d hr
  obtain ⟨ts, hp, hx⟩ := h hc x d hr
  exact ⟨ts, hp, hP x ts hx⟩

theorem Leads.ite {p : Prop} [Decidable p] (ha : p → Leads limit P a c) (hb : ¬ p → Leads limit P b c) :
    Leads limit P (if p then a else b) c := by
  split
  · exact ha ‹p›
  · exact hb ‹¬ p›

theorem Leads.get {f : Cursor → Rule α} (h : Leads limit P (f c) c) : Leads limit P (get >>= f) c := h

theorem Leads.ifToken {p : Token → Bool} (ha : p c.current = true → Leads limit P a c)
    (hb : p c.current = false → Leads limit P b c) :
    Leads limit P (atToken p >>= fun y => if y = true then a else b) c :=
  Leads.get (f := fun c => if p c.current = true then a else b)
    (.ite ha fun h => hb (Bool.eq_false_iff.mpr h))

theorem Firm.leads (h : Firm limit (fun _ _ => True) r c) :
    Leads limit (fun _ ts => ts ≠ []) r c := by
  intro hc x d hr
  obtain ⟨ts, hp, -⟩ := h.indifferent hc x d hr
  exact ⟨ts, hp, h.ne_nil hc hr hp⟩

/-! ### Nodes of a rule -/

variable {N : α → List Node} {M : β → List Node}

theorem Lays.pure {x : α} (h : N x = []) : Lays limit N (pure x) c :=
  Leads.pure (by rw [h]; exact .nil [])

theorem Lays.after (h : Lays limit (fun _ => []) r c) (hk : ∀ x d, Lays limit M (k x) d) :
    Lays limit M (r >>= k) c :=
  h.bind fun x d ts _ _ => (hk x d).imp fun _ _ hy => hy.append_left ts

theorem Lays.map {f : α → β} (h : Lays limit N r c) (hf : ∀ x, M (f x) = N x) :
    Lays limit M (r >>= fun x => Pure.pure (f x)) c :=
  h.bind fun x d ts _ hx => Leads.pure (by rwa [hf, List.append_nil])

/-- The nodes of one result after those of another one. -/
theorem Lays.append {γ : Type} {r' : α → Rule β} {f : α → β → γ} {L : γ → List Node}
    (h : Lays limit N r c) (h' : ∀ x d, Lays limit M (r' x) d) (hf : ∀ x y, L (f x y) = N x ++ M y) :
    Lays limit L (r >>= fun x => r' x >>= fun y => Pure.pure (f x y)) c := by
  refine h.bind fun x d ts _ hx => Leads.bind (h' x d) fun y e us _ hy => Leads.pure ?_
  rw [hf, List.append_nil]
  exact hx.append hy

/-- Where no nodes are asked for, the tokens are taken all the same. -/
theorem Indifferent.lays {S : α → Token → Prop} (h : Indifferent limit S r c) :
    Lays limit (fun _ => []) r c := by
  intro hc x d hr
  obtain ⟨ts, hp, -⟩ := h hc x d hr
  exact ⟨ts, hp, .nil ts⟩

theorem Firm.lays (h : Firm limit (fun _ _ => True) r c) : Lays limit (fun _ => []) r c :=
  h.indifferent.lays

/-- A mark that is taken or not makes no node. -/
theorem Lays.accept {t : Token.Kind} {K : Bool → Rule α} (ht : t.isMark = true)
    (ha : ∀ d, Lays limit N (K true) d) (hb : Lays limit N (K false) c) :
    Lays limit N (Rule.accept t >>= K) c := by
  rw [accept_bind]
  refine .ifToken (fun h => ?_) fun _ => hb
  have he : c.current.isEnd = false := isEnd_of_isMark ht (by simpa using h)
  exact Lays.after (firm_advance he).lays fun _ d => ha d

/-! ### Gathering nodes -/

variable {node : β → Node} {n₀ : Nat} {taken : Prop} {ns ms : List Node}

theorem Gathered.append {d : Cursor} {us ts : List Token} (h : Gathered n₀ ns us c)
    (hp : c.Passes ts d) (hms : Laid ms ts) : Gathered n₀ (ns ++ ms) (us ++ ts) d where
  laid := h.laid.append hms
  first := by
    rw [← h.first, hp.current]
    cases us <;> rfl
  last := by
    intro t ht
    rw [hp.lastStop]
    cases ts with
    | nil =>
      rw [List.append_nil] at ht
      exact h.last t ht
    | cons u ts =>
      rw [List.getLast?_append, List.getLast?_cons] at *
      simp_all

theorem Builds.bind (h : Lays limit N r c)
    (hk : ∀ x d, Builds limit node n₀ taken (ns ++ N x) (k x) d) :
    Builds limit node n₀ taken ns (r >>= k) c := by
  intro us hus htaken
  refine Leads.bind h fun x d ts hp hx => ?_
  have hnode := hk x d (us ++ ts) (hus.append hp hx) fun ht => by simp [htaken ht]
  exact hnode.imp fun y vs hy => by rwa [← List.append_assoc]

theorem Builds.take (h : Firm limit (fun _ _ => True) r c)
    (hk : ∀ x d, Builds limit node n₀ True ns (k x) d) :
    Builds limit node n₀ taken ns (r >>= k) c := by
  intro us hus _
  refine Leads.bind h.leads fun x d ts hp hne => ?_
  have hnode := hk x d (us ++ ts) (by simpa using hus.append hp (.nil ts)) fun _ => by simp [hne]
  exact hnode.imp fun y vs hy => by rwa [← List.append_assoc]

theorem Builds.get {f : Cursor → Rule β} (h : Builds limit node n₀ taken ns (f c) c) :
    Builds limit node n₀ taken ns (get >>= f) c := h

theorem Builds.ite {a b : Rule β} {p : Prop} [Decidable p]
    (ha : p → Builds limit node n₀ taken ns a c) (hb : ¬ p → Builds limit node n₀ taken ns b c) :
    Builds limit node n₀ taken ns (if p then a else b) c := fun us hus ht =>
  .ite (fun h => ha h us hus ht) fun h => hb h us hus ht

theorem Builds.ifToken {a b : Rule β} {p : Token → Bool}
    (ha : p c.current = true → Builds limit node n₀ taken ns a c)
    (hb : p c.current = false → Builds limit node n₀ taken ns b c) :
    Builds limit node n₀ taken ns (atToken p >>= fun y => if y = true then a else b) c :=
  fun us hus ht => .ifToken (fun h => ha h us hus ht) fun h => hb h us hus ht

theorem Builds.atToken {K : Bool → Rule β} {p : Token → Bool}
    (ha : p c.current = true → Builds limit node n₀ taken ns (K true) c)
    (hb : p c.current = false → Builds limit node n₀ taken ns (K false) c) :
    Builds limit node n₀ taken ns (Rule.atToken p >>= K) c := by
  refine .get ?_
  cases h : p c.current with
  | true => exact ha h
  | false => exact hb h

theorem Builds.accept {t : Token.Kind} {K : Bool → Rule β} (ht : t.isMark = true)
    (ha : ∀ d, Builds limit node n₀ True ns (K true) d)
    (hb : Builds limit node n₀ taken ns (K false) c) :
    Builds limit node n₀ taken ns (Rule.accept t >>= K) c := by
  rw [accept_bind]
  refine .ifToken (fun h => ?_) fun _ => hb
  exact .take (firm_advance (isEnd_of_isMark ht (by simpa using h)))
    fun _ d => ha d

theorem Builds.map {f : α → β} (h : Builds limit (fun x => node (f x)) n₀ taken ns r c) :
    Builds limit node n₀ taken ns (r >>= fun x => Pure.pure (f x)) c := fun us hus ht =>
  (h us hus ht).bind fun x d ts _ hx => .pure (by rwa [List.append_nil])

theorem Builds.done {x : β} : Builds limit node n₀ taken [node x] (Pure.pure x) c := fun us hus _ =>
  .pure (by rw [List.append_nil]; exact hus.laid)

/-- A node that was made is gathered for another one from the same start on. -/
theorem Builds.wrap {leaf : α → Node} (h : Builds limit leaf n₀ taken ns r c)
    (hk : ∀ x d, Builds limit node n₀ False [leaf x] (k x) d) :
    Builds limit node n₀ taken ns (r >>= k) c := by
  intro us hus ht
  refine (h us hus ht).bind fun x d ts hp hx => ?_
  have hgathered := hus.append hp (.nil ts)
  exact (hk x d (us ++ ts) ⟨hx, hgathered.first, hgathered.last⟩ False.elim).imp fun y vs hy => by
    rwa [← List.append_assoc]

/-- **The span of a node covers the tokens it is made of.** -/
theorem Builds.finish {f : Span → β} (hne : taken ∨ ns ≠ []) (hspan : ∀ s, (node (f s)).span = s)
    (hleaf : ∀ s, (node (f s)).lexeme? = none) (hchildren : ∀ s, (node (f s)).children = ns) :
    Builds limit node n₀ taken ns (spanFrom n₀ >>= fun s => Pure.pure (f s)) c := by
  intro us hus ht _ x d hr
  cases hr
  have hne' : us ≠ [] := hne.elim ht hus.laid.ne_nil
  refine ⟨[], .nil c, ?_⟩
  simp only [List.append_nil]
  have hhead := List.head?_eq_some_head hne'
  have hlast := List.getLast?_eq_some_getLast hne'
  have hfirst := hus.first
  rw [hhead, Option.getD_some] at hfirst
  have hstop := hus.last _ hlast
  refine Placed.laid ⟨⟨_, hhead, _, hlast, ?_, fun hle => ?_⟩, by rw [hleaf]; simp, by
    rw [hchildren]
    exact hus.laid⟩
  · rw [hspan, hfirst]
  · rw [hspan, hstop]
    exact Nat.max_eq_left (by omega)

/-- Nothing was gathered yet from the current token on. -/
theorem Lays.begin {r : Rule β} (h : Builds limit node c.current.span.start False [] r c) :
    Lays limit (fun y => [node y]) r c :=
  h [] ⟨.nil [], rfl, by simp⟩ False.elim

theorem Lays.start {K : Nat → Rule β} (h : ∀ n, Builds limit node n False [] (K n) c) :
    Lays limit (fun y => [node y]) (Rule.start >>= K) c :=
  Leads.get (f := fun c => K c.current.span.start) (Lays.begin (h _))

end Steps

/-! ### Single tokens -/

section Tokens
variable {α β : Type} {limit : Nat} {c : Cursor} {P : α → List Token → Prop}

theorem leads_advance (he : c.current.isEnd = false) :
    Leads limit (fun _ ts => ts = [c.current] ∧ c.current.lexeme.Valid) advance c :=
  fun hc _ d hr => ⟨_, .cons he hr (.nil d), rfl, hc.valid he⟩

theorem leads_token {x : α} (he : c.current.isEnd = false)
    (h : c.current.lexeme.Valid → P x [c.current]) :
    Leads limit P (advance >>= fun _ => Pure.pure x) c := by
  refine (leads_advance he).bind fun _ d ts _ ht => .pure ?_
  rw [ht.1]
  exact h ht.2

theorem leads_name : Leads limit (fun n ts => Placed (.name n) ts) name c := by
  refine .get (.ite (fun h => ?_) fun _ => .fail)
  have hkind : c.current.kind = .name := by simpa using h
  exact leads_token (isEnd_of_hasValue rfl hkind) fun hv =>
    .leaf rfl (by simpa [Node.lexeme?] using lexeme_eq_value hv rfl hkind) rfl

theorem lays_name : Lays limit (fun n => [.name n]) name c := leads_name.imp fun _ _ h => h.laid

/-- A name that stands for a type covers what the name does. -/
theorem lays_namedType : Lays limit (fun t => [.named t]) namedType c := by
  refine leads_name.bind fun n d ts _ hn => .pure ?_
  rw [List.append_nil]
  exact (Placed.intro (n := .named ⟨n, n.span⟩) hn.covers (by simp [Node.lexeme?]) hn.laid).laid

/-! ### Descriptions -/

/-- A description, if there is one, was read from a token of its own. -/
inductive Described : Option StringValue → List Token → Prop where
  | none : Described none []
  | some {v : StringValue} {t : Token} (h : Placed (.value (.string v)) [t]) : Described (some v) [t]

theorem leads_stringValue (hs : isString c.current = true) :
    Leads limit (fun v ts => Described (some v) ts) stringValue c := by
  have hkind : c.current.kind = .string ∨ c.current.kind = .blockString := by
    simpa [isString] using hs
  refine .get (leads_token ?_ fun hv => .some (.leaf rfl ?_ rfl))
  · rcases hkind with h | h <;> exact isEnd_of_hasValue rfl h
  · rcases hkind with h | h <;>
      simpa [Node.lexeme?, StringValue.lexeme, h] using lexeme_eq_value hv rfl h

theorem lays_stringValue (hs : isString c.current = true) :
    Lays limit (fun v => [.value (.string v)]) stringValue c :=
  (leads_stringValue hs).imp fun _ _ h => by cases h with | some h => exact h.laid

theorem leads_description : Leads limit Described description c := by
  refine .ifToken (fun hs => ?_) fun _ => .pure .none
  refine (leads_stringValue hs).bind fun v d ts _ hv => .pure ?_
  rwa [List.append_nil]

variable {node : β → Node}

/-- A node starts where its description does, or else at the current token. -/
theorem Builds.startOf {K : Nat → Rule β} {v : Option StringValue} {us : List Token} {b : Cursor}
    (hv : Described v us) (hp : b.Passes us c)
    (h : ∀ n, Builds limit node n False (Node.ofDescription v) (K n) c) :
    Leads limit (fun y ts => Laid [node y] (us ++ ts)) (Rule.startOf v >>= K) c := by
  cases hv with
  | none => exact Lays.start h
  | @some v t hv =>
    obtain ⟨first, hfirst, _, -, hstart, -⟩ := hv.covers
    cases hfirst
    have hlast : c.lastStop = t.span.stop := hp.lastStop
    have hgathered : Gathered v.span.start [.value (.string v)] [t] c :=
      ⟨hv.laid, hstart.symm, by simpa using hlast⟩
    exact h v.span.start _ hgathered False.elim

theorem Lays.described {K : Option StringValue → Nat → Rule β}
    (h : ∀ v n d, Builds limit node n False (Node.ofDescription v) (K v n) d) :
    Lays limit (fun y => [node y]) (description >>= fun v => Rule.startOf v >>= K v) c :=
  leads_description.bind fun v d _ hp hv => Builds.startOf hv hp fun n => h v n d

/-! ### Options and repetitions -/

variable {r : Rule α} {leaf : α → Node} {p : Token → Bool} {N : α → List Node}
  {L : List α → List Node}

theorem lays_optional (h : p c.current = true → Lays limit (fun x => [leaf x]) r c) :
    Lays limit (fun o => o.toList.map leaf) (optional p r) c :=
  .ifToken (fun hc => (h hc).map fun _ => rfl) fun _ => Lays.pure rfl

/-- The nodes of a list are those of its items. -/
structure Spreads (N : α → List Node) (L : List α → List Node) : Prop where
  nil : L [] = []
  cons : ∀ x xs, L (x :: xs) = N x ++ L xs

theorem spreads_map : Spreads (fun x => [leaf x]) fun xs => xs.map leaf := ⟨rfl, fun _ _ => rfl⟩

theorem lays_repeatWhile (hL : Spreads N L) (h : ∀ c : Cursor, p c.current = true → Lays limit N r c)
    (n : Nat) (c : Cursor) : Lays limit L (repeatWhile p r n) c := by
  induction n generalizing c with
  | zero => exact Lays.pure hL.nil
  | succ n ih =>
    exact .ifToken (fun hc => (h c hc).append (fun _ d => ih d) hL.cons) fun _ => Lays.pure hL.nil

section Enclosed
variable {opening close : Token.Kind} (hopening : opening.isMark = true)
  (hclose : close.isMark = true) (h : ∀ c : Cursor, Lays limit (fun x => [leaf x]) r c) {n : Nat}
include hclose h

theorem lays_upTo : Lays limit (fun xs => xs.map leaf) (upTo close r n) c := by
  refine (lays_repeatWhile spreads_map (fun c _ => h c) n c).bind fun xs d ts _ hxs => ?_
  refine (firm_expect hclose).leads.bind fun _ e us _ _ => .pure ?_
  rw [List.append_nil]
  exact hxs.append_right us

include hopening

theorem lays_between : Lays limit (fun xs => xs.map leaf) (between n opening r close) c :=
  .after (Firm.lays (firm_expect hopening)) fun _ d =>
    (h d).append (fun _ _ => lays_upTo hclose h) fun _ _ => rfl

/-- What stands between two marks is gathered together with the marks. -/
theorem Builds.between {node : β → Node} {n₀ : Nat} {taken : Prop} {ns : List Node}
    {k : List α → Rule β}
    (hk : ∀ xs d, Builds limit node n₀ True (ns ++ xs.map leaf) (k xs) d) :
    Builds limit node n₀ taken ns (Rule.between n opening r close >>= k) c := by
  unfold Rule.between
  rw [bind_assoc]
  refine .take (firm_expect hopening) fun _ d => .bind ?_ hk
  exact (h d).append (fun _ _ => lays_upTo hclose h) fun _ _ => rfl

theorem lays_optionalBetween :
    Lays limit (fun xs => xs.map leaf) (optionalBetween n opening r close) c :=
  .ifToken (fun _ => lays_between hopening hclose h) fun _ => Lays.pure rfl

end Enclosed

theorem lays_separated {mark : Token.Kind} (hmark : mark.isMark = true) (hL : Spreads N L)
    (h : ∀ c : Cursor, Lays limit N r c) {n : Nat} : Lays limit L (separated n mark r) c := by
  refine (h c).append (fun _ d => lays_repeatWhile hL (fun c hc => ?_) n d) hL.cons
  have he : c.current.isEnd = false := isEnd_of_isMark hmark (by simpa using hc)
  exact .after (firm_advance he).lays fun _ d => h d

end Tokens

end Rule

end QueryDocs
