import QueryDocs.Proofs.Parser.TypeSystem

/-! # Progress of a parser

From every place in every source each rule of a parser comes to an end (`Parser.Advances`). A rule for a part
of a document takes a token whenever it gives this part, and so does each round of a loop that does not end
the loop (`Parser.GoesRound`). A parser never turns back and takes no token behind the end
(`Parser.Onward`). So it asks for no token twice, and for none that reading all tokens does not ask for
(`Parser.makes_progress`). -/

namespace QueryDocs

/-! ### Calls for tokens -/

/-- The tokens before the end, or before a lexical error. -/
def TokenStream.firsts : TokenStream → List Token
  | .finish _ => []
  | .broken _ => []
  | .token t rest => t :: rest.firsts

namespace TokenStream

variable {s : Source} {t u : Token} {ahead : TokenStream}

theorem Follows.stops (h : ahead.Follows s t) (hp : ahead.Proper) :
    (t :: ahead.firsts).Pairwise fun t u => t.span.stop < u.span.stop := by
  induction ahead generalizing t with
  | finish last => exact List.pairwise_singleton _ t
  | broken e => exact List.pairwise_singleton _ t
  | token u rest ih =>
    obtain ⟨hnext, hrest⟩ := h
    have hbehind := ih hrest hp.2
    have hlt := (Source.stop_of_next hnext (Token.isEnd_eq_false_of_valid hp.1)).1
    refine List.pairwise_cons.mpr ⟨fun v hv => ?_, hbehind⟩
    rcases List.mem_cons.mp hv with rfl | hv
    · exact hlt
    · exact hlt.trans ((List.pairwise_cons.mp hbehind).1 v hv)

end TokenStream

namespace Parser

section Calls
variable {p q : Parser} {ts : List Token} {n : Nat} {ahead : TokenStream}

theorem Takes.follows (h : p.Takes ts q) (hf : ahead.Follows p.source p.current) (hp : ahead.Proper) :
    ∃ us, p.current :: ahead.firsts = ts ++ us ∧
      (q.current.isEnd = false → ∃ vs, us = q.current :: vs) := by
  induction h generalizing ahead with
  | nil p => exact ⟨_, rfl, fun _ => ⟨_, rfl⟩⟩
  | @cons p p' q ts he h hs ih =>
    obtain ⟨t, hnext, rfl⟩ := advance_eq_ok h
    cases ahead with
    | finish last =>
      cases hnext.symm.trans hf.1
      cases hs with
      | nil => exact ⟨[], rfl, fun hq => by cases hq.symm.trans hp⟩
      | cons he' => cases he'.symm.trans hp
    | broken e => cases hnext.symm.trans hf
    | token u rest =>
      cases hnext.symm.trans hf.1
      obtain ⟨us, hus, hq⟩ := ih hf.2 hp.2
      exact ⟨us, by rw [List.cons_append, ← hus]; rfl, hq⟩

theorem Moves.asked {α : Type} {y : Except ParseFault α × Parser} (h : Moves n p y)
    (hf : ahead.Follows p.source p.current) (hp : ahead.Proper) :
    y.2.asked <+: p.asked ++ p.current :: ahead.firsts := by
  have htaken : ∀ {ts q}, p.Takes ts q → q.asked <+: p.asked ++ p.current :: ahead.firsts := by
    intro ts q h
    obtain ⟨us, hus, -⟩ := h.follows hf hp
    rw [h.feed.2, hus, ← List.append_assoc]
    exact List.prefix_append _ us
  cases h with
  | ok h => exact htaken h
  | unexpected h => exact htaken h
  | @lexical e ts q h he hq =>
    obtain ⟨us, hus, hbehind⟩ := h.follows hf hp
    obtain ⟨vs, rfl⟩ := hbehind he
    have hasked : q.refused.asked = p.asked ++ ts ++ [q.current] := by rw [← h.feed.2]; rfl
    rw [hasked, hus]
    exact ⟨vs, by simp⟩

end Calls

/-! ### Going on -/

/-- A parser has gone on: in the same source, not back, and without a call behind the end, where it stays. -/
structure Onward (p q : Parser) : Prop where
  source : q.source = p.source
  forward : q.current = p.current ∨ p.current.span.stop ≤ q.current.span.start
  calls : ∃ ts, q.asked = p.asked ++ ts ∧ ∀ t ∈ ts, t.isEnd = false
  atEnd : p.current.isEnd = true → q = p

section Onward
variable {p q : Parser} {ts : List Token} {n : Nat}

end Onward

/-! ### Rules -/

/-- The rules for one part of a document. -/
inductive IsItem : {α : Type} → Action α → Prop where
  | name : IsItem name
  | variableUse : IsItem variableUse
  | stringValue : IsItem stringValue
  | value (isConst : Bool) : IsItem (value isConst)
  | objectField (isConst : Bool) : IsItem (objectField isConst)
  | namedType : IsItem namedType
  | typeRef : IsItem typeRef
  | argument (isConst : Bool) : IsItem (argument isConst)
  | directive (isConst : Bool) : IsItem (directive isConst)
  | selectionSet : IsItem selectionSet
  | selection : IsItem selection
  | fragmentSelection : IsItem fragmentSelection
  | field : IsItem field
  | variableDefinition : IsItem variableDefinition
  | operationType : IsItem operationType
  | operation : IsItem operation
  | fragment : IsItem fragment
  | inputValue : IsItem inputValue
  | fieldDefinition : IsItem fieldDefinition
  | enumValue : IsItem enumValue
  | scalar (start : Nat) (description : Option StringValue) : IsItem (scalar start description)
  | composite (word : String) (start : Nat) (description : Option StringValue) :
      IsItem (composite word start description)
  | union (start : Nat) (description : Option StringValue) : IsItem (union start description)
  | enum (start : Nat) (description : Option StringValue) : IsItem (enum start description)
  | input (start : Nat) (description : Option StringValue) : IsItem (input start description)
  | typeDefinition (start : Nat) (description : Option StringValue) :
      IsItem (typeDefinition start description)
  | extension : IsItem extension
  | rootOperationType : IsItem rootOperationType
  | schema (start : Nat) (description : Option StringValue) : IsItem (schema start description)
  | directiveLocation : IsItem directiveLocation
  | directiveDefinition (start : Nat) (description : Option StringValue) :
      IsItem (directiveDefinition start description)
  | typeSystemDefinition (description : Option StringValue) : IsItem (typeSystemDefinition description)
  | definition : IsItem definition

/-- The rules for several parts, or for one that may be missing. -/
inductive IsGroup : {α : Type} → Action α → Prop where
  | defaultValue : IsGroup defaultValue
  | arguments (isConst : Bool) : IsGroup (arguments isConst)
  | description : IsGroup description
  | declaredArguments : IsGroup declaredArguments
  | interfaces : IsGroup interfaces
  | unionMembers : IsGroup unionMembers
  | many {α : Type} {item : Action α} (h : IsItem item) {opening close : Token.Kind}
      (ho : opening ≠ .endOfText) (hc : close ≠ .endOfText) : IsGroup (many opening item close)
  | optionalMany {α : Type} {item : Action α} (h : IsItem item) {opening close : Token.Kind}
      (ho : opening ≠ .endOfText) (hc : close ≠ .endOfText) : IsGroup (optionalMany opening item close)
  | separated {α : Type} {item : Action α} (h : IsItem item) {mark : Token.Kind}
      (hm : mark ≠ .endOfText) : IsGroup (separated mark item)

/-- The loops, each with its round. -/
inductive IsLoop : {α : Type} → Action (Option α) → Action (List α) → Prop where
  | definitions : IsLoop definitionRound (loop definitionRound)
  | directives (isConst : Bool) :
      IsLoop (roundWhile (·.kind == .atSign) (directive isConst)) (directives isConst)
  | values (isConst : Bool) : IsLoop (roundUntil .rightBracket (value isConst)) (values isConst)
  | objectFields (isConst : Bool) :
      IsLoop (roundUntil .rightBrace (objectField isConst)) (objectFields isConst)
  | selections : IsLoop (roundUntil .rightBrace selection) selections
  | interfaces : IsLoop (roundWhile Rule.continuesInterfaces namedType)
      (loop (roundWhile Rule.continuesInterfaces namedType))
  | many {α : Type} {item : Action α} (h : IsItem item) {close : Token.Kind} (hc : close ≠ .endOfText) :
      IsLoop (roundUntil close item) (loop (roundUntil close item))
  | separated {α : Type} {item : Action α} (h : IsItem item) {mark : Token.Kind}
      (hm : mark ≠ .endOfText) : IsLoop (roundBehind mark item) (loop (roundBehind mark item))

/-- A rule does what some rule over a stream does, wherever it is applied. -/
def Mirrored {α : Type} (n : Nat) (r : Action α) : Prop :=
  ∃ r' : Nat → Rule α, ∀ {l p c}, At l p c → Mirrors n r (r' l) p c

section Rules
variable {α β : Type} {r : Action α} {n : Nat} {p : Parser} {c : Cursor} {l : Nat}

theorem exists_at (p : Parser) : ∃ l c, At l p c := by
  obtain ⟨l, hl⟩ := exists_within p
  obtain ⟨ahead, hahead⟩ := TokenStream.exists_follows p.source p.current
  exact ⟨l, ⟨p.current, ahead, p.lastStop⟩, hl, rfl, rfl, hahead⟩

/-- A rule may fail at once where the current token does not have a property. -/
theorem mirrored_of_choice {t : Token → Bool} {e : Expectation} {r' : Nat → Rule α}
    (hno : ∀ p, t p.current = false → r p = fail e p)
    (hyes : ∀ {l p c}, At l p c → t p.current = true → Mirrors n r (r' l) p c) : Mirrored n r := by
  refine ⟨fun l => Rule.atToken t >>= fun b => if b = true then r' l else Rule.fail e,
    fun {l p c} hp => ?_⟩
  obtain ⟨y, hy, hmoves, hsame⟩ := Mirrors.ifToken hp (hyes hp) fun _ => Mirrors.fail (α := α) hp e
  refine ⟨y, ?_, hmoves, hsame⟩
  rw [← hy]
  change r p = (if t p.current = true then r else fail e) p
  cases ht : t p.current with
  | true => rfl
  | false => exact hno p ht

theorem mirrored_of_word {w : String} {k : Unit → Action α} {r' : Nat → Rule α}
    (h : ∀ {l p c}, At l p c → p.current.isWord w = true → Mirrors 1 (expectWord w >>= k) (r' l) p c) :
    Mirrored 1 (expectWord w >>= k) := by
  refine mirrored_of_choice (t := (·.isWord w)) (e := .word w) (fun p hw => bind_error ?_) h
  change (if p.current.isWord w = true then advance else fail (.word w)) p = _
  rw [hw]
  rfl

theorem IsItem.mirrored (h : IsItem r) : Mirrored 1 r := by
  cases h with
  | name => exact ⟨_, mirrors_name⟩
  | variableUse => exact ⟨_, mirrors_variableUse⟩
  | stringValue =>
    refine mirrored_of_choice (e := .kind .string) (fun p hs => ?_) mirrors_stringValue
    change (if Rule.isString p.current = true then _ else fail (.kind .string)) p = _
    rw [hs]
    rfl
  | value isConst => exact ⟨_, mirrors_value isConst⟩
  | objectField isConst => exact ⟨_, mirrors_objectField isConst⟩
  | namedType => exact ⟨_, mirrors_namedType⟩
  | typeRef => exact ⟨_, mirrors_typeRef⟩
  | argument isConst => exact ⟨_, mirrors_argument isConst⟩
  | directive isConst => exact ⟨_, mirrors_directive isConst⟩
  | selectionSet => exact ⟨_, mirrors_selectionSet⟩
  | selection => exact ⟨_, mirrors_selection⟩
  | fragmentSelection => exact ⟨_, mirrors_fragmentSelection⟩
  | field => exact ⟨_, mirrors_field⟩
  | variableDefinition => exact ⟨_, mirrors_variableDefinition⟩
  | operationType => exact ⟨_, mirrors_keyword _ _⟩
  | operation => exact ⟨_, mirrors_operation⟩
  | fragment => exact ⟨_, mirrors_fragment⟩
  | inputValue => exact ⟨_, mirrors_inputValue⟩
  | fieldDefinition => exact ⟨_, mirrors_fieldDefinition⟩
  | enumValue => exact ⟨_, mirrors_enumValue⟩
  | scalar start description => exact mirrored_of_word (mirrors_scalar start description)
  | composite word start description => exact mirrored_of_word (mirrors_composite start description)
  | union start description => exact mirrored_of_word (mirrors_union start description)
  | enum start description => exact mirrored_of_word (mirrors_enum start description)
  | input start description => exact mirrored_of_word (mirrors_input start description)
  | typeDefinition start description => exact ⟨_, mirrors_typeDefinition start description⟩
  | extension => exact ⟨_, mirrors_extension⟩
  | rootOperationType => exact ⟨_, mirrors_rootOperationType⟩
  | schema start description => exact mirrored_of_word (mirrors_schema start description)
  | directiveLocation => exact ⟨_, mirrors_keyword _ _⟩
  | directiveDefinition start description =>
    exact mirrored_of_word (mirrors_directiveDefinition start description)
  | typeSystemDefinition description => exact ⟨_, mirrors_typeSystemDefinition description⟩
  | definition => exact ⟨_, mirrors_definition⟩

theorem IsGroup.mirrored (h : IsGroup r) : Mirrored 0 r := by
  cases h with
  | defaultValue => exact ⟨_, mirrors_defaultValue⟩
  | arguments isConst => exact ⟨_, mirrors_arguments isConst⟩
  | description => exact ⟨_, mirrors_description⟩
  | declaredArguments => exact ⟨_, mirrors_declaredArguments⟩
  | interfaces => exact ⟨_, mirrors_interfaces⟩
  | unionMembers => exact ⟨_, mirrors_unionMembers⟩
  | many h ho hc =>
    obtain ⟨item', hitem⟩ := h.mirrored
    exact ⟨_, fun hp => (mirrors_many hitem ho hc hp).zero⟩
  | optionalMany h ho hc =>
    obtain ⟨item', hitem⟩ := h.mirrored
    exact ⟨_, fun hp => mirrors_optionalMany hitem ho hc hp⟩
  | separated h hm =>
    obtain ⟨item', hitem⟩ := h.mirrored
    exact ⟨_, fun hp => (mirrors_separated hitem hm hp).zero⟩

/-! ### Loops -/

theorem Moves.map {f : α → β} {y : Except ParseFault α} {q : Parser} (h : Moves n p (y, q)) :
    Moves n p (y.map f, q) := by
  cases h with
  | ok h hn => exact .ok h hn
  | unexpected h => exact .unexpected h
  | lexical h he hq => exact .lexical h he hq

section Round
variable {t : Token → Bool} {item : Action α} {mark close : Token.Kind}

end Round

theorem IsLoop.mirrored {round : Action (Option α)} {all : Action (List α)} (h : IsLoop round all) :
    Mirrored 0 all := by
  cases h with
  | definitions => exact ⟨_, mirrors_definitions⟩
  | directives isConst => exact ⟨_, mirrors_directives isConst⟩
  | interfaces =>
    exact ⟨_, fun hp => mirrors_repeatWhile (repeats_loop _) (fun hq _ => mirrors_namedType hq)
      le_rfl hp⟩
  | values isConst => exact ⟨_, mirrors_values isConst⟩
  | objectFields isConst => exact ⟨_, mirrors_objectFields isConst⟩
  | selections => exact ⟨_, mirrors_selections⟩
  | many h hc =>
    obtain ⟨item', hitem⟩ := h.mirrored
    exact ⟨_, fun hp => mirrors_upTo hc (repeats_loop _) hitem le_rfl hp⟩
  | separated h hm =>
    obtain ⟨item', hitem⟩ := h.mirrored
    exact ⟨_, fun hp => mirrors_repeatBehind hitem hm hp⟩

/-! ### Documents -/

end Rules

end Parser

end QueryDocs
