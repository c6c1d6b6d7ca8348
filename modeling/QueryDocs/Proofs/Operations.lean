import QueryDocs.Proofs.Grammar.Bodies
import QueryDocs.Proofs.TokenOrder

/-! # The operations of a printed document

Where a definition that lacks its body stands before a selection set alone, printing and reading
back loses an operation (`operations_of_run`). Nowhere else does it change what the operations are
called and what they do (`operations_print_iff`). -/

namespace QueryDocs

open Lexeme (mark word first)
open QueryDocs.Layout

/-- What an operation is called and what it does. -/
def OperationDefinition.key (d : OperationDefinition) : Option String × OperationType :=
  (d.name.map (·.text), d.operation)

/-- What the operations of a document are called and what they do. -/
def Document.operationKeys (d : Document) : List (Option String × OperationType) :=
  d.operations.map OperationDefinition.key

theorem Definition.operation?_relabel (m : Relabeling) (x : Definition) :
    (relabel m x).operation? = x.operation?.map (relabel m) := by
  cases x <;> rfl

theorem operations_relabel (m : Relabeling) (xs : List Definition) :
    (relabel m xs).filterMap Definition.operation? =
      (xs.filterMap Definition.operation?).map (relabel m) := by
  change (xs.map (relabel m)).filterMap Definition.operation? = _
  rw [List.filterMap_map, List.map_filterMap]
  exact congrArg (List.filterMap · xs) (funext (Definition.operation?_relabel m))

theorem Document.operationKeys_relabel (m : Relabeling) (d : Document) :
    (relabel m d).operationKeys = d.operationKeys := by
  have hkey : OperationDefinition.key ∘ relabel m = OperationDefinition.key := by
    funext o
    obtain ⟨_, n, _⟩ := o
    cases n <;> rfl
  change ((relabel m d.definitions).filterMap Definition.operation?).map _ = _
  rw [operations_relabel, List.map_map, hkey]
  rfl

namespace Rule

theorem operation?_of_typeSystem {limit : Nat} {v : Option StringValue} :
    Ends (typeSystemDefinition limit v) fun x _ => x.operation? = none := by
  refine .bind fun _ => .bind fun c => .ite (fun _ => ?_) fun _ => .ite (fun _ => ?_) fun _ => ?_
  all_goals exact .map (ends_any _) fun _ _ _ => rfl

theorem operation?_of_definition {limit : Nat} {c d : Cursor} {x : Definition}
    (h : definition limit c = .ok (x, d)) (hc : startsOperation c.current = false) :
    x.operation? = none := by
  change (if startsOperation c.current then _ else _ : Rule Definition) c = _ at h
  rw [hc, if_neg (by simp)] at h
  split_ifs at h
  · obtain ⟨v, e, -, hk⟩ := bind_eq_ok h
    exact operation?_of_typeSystem _ _ _ hk
  · obtain ⟨y, e, -, hk⟩ := bind_eq_ok h
    cases hk
    rfl
  · obtain ⟨y, e, -, hk⟩ := bind_eq_ok h
    cases hk
    rfl
  · exact operation?_of_typeSystem _ _ _ h

section Runs
variable {block : String → Bool} {x : Definition} {ks : List Lexeme} {full : Bool}

theorem startsOperation_of_lacksBody (h : x.lacksBody = true) :
    startsOperation (head block (x.lexemes full ++ ks)) = false := by
  cases x with
  | type d =>
    obtain ⟨w, hw, ls, hls⟩ := lexemes_type full d
    rw [Definition.lexemes, hls]
    cases hv : d.description with
    | none =>
      obtain ⟨hoperation, -⟩ := systemWords_other w
        (List.mem_cons_of_mem _ (List.mem_cons_of_mem _ hw))
      simp [startsOperation, Token.text, hoperation]
    | some v =>
      have hstring : isString (head block (v.lexeme :: (word w :: ls ++ ks))) = true ∧
          Takes block 0 stringValue [v.lexeme] v _ := takes_stringValue v
      exact startsOperation_of_isString hstring.1
  | extension e => rfl
  | _ => cases h

theorem lexemes_of_isBare (h : x.isBare full = true) :
    ∃ o : OperationDefinition, x = .operation o ∧ x.lexemes full = o.selectionSet.lexemes := by
  cases x with
  | operation o =>
    obtain ⟨hshort, rfl⟩ : o.isShorthand = true ∧ full = false := by simpa [Definition.isBare] using h
    exact ⟨o, rfl, OperationDefinition.lexemes_of_isShorthand hshort⟩
  | _ => cases h

/-- The tokens of definitions with no token that may be left out. -/
abbrev printed (xs : List Definition) : List Lexeme := xs.flatMap (Definition.lexemes false)

/-- The first of several definitions is read as it is, or it takes the next one for its body. -/
theorem definition_cases {limit : Nat} {xs : List Definition} {y : Definition} {c : Cursor}
    (hlen : (printed (x :: xs)).length < limit) (hx : x.Shaped)
    (hv : ∀ l ∈ printed (x :: xs), l.Valid)
    (hr : definition limit (.plain (.plain block) (printed (x :: xs))) = .ok (y, c)) :
    (y = relabel (.plain block) x ∧ c = .plain (.plain block) (printed xs) ∧
        ∀ z ∈ xs.head?, x.lacksBody = true → z.isBare false = false) ∨
      x.lacksBody = true ∧ y.operation? = none ∧ ∃ o zs, xs = .operation o :: zs ∧
        c = .plain (.plain block) (printed zs) := by
  rw [printed, List.flatMap_cons] at hlen hv hr
  by_cases hbrace : x.lacksBody = true → first (printed xs) ≠ .leftBrace
  · have hstarts : Starts (printed xs) := by
      cases xs with
      | nil => exact Or.inl rfl
      | cons z zs => exact Or.inr (begins_definition false z (printed zs)).1
    have htakes : Takes block limit (definition limit) (x.lexemes false) x (printed xs) :=
      takes_definition hx hstarts hbrace
    obtain ⟨rfl, rfl⟩ := Prod.mk.inj (Except.ok.inj (hr.symm.trans (htakes hlen)))
    refine Or.inl ⟨rfl, rfl, fun z hz hlacks => Bool.eq_false_iff.mpr fun hbare => ?_⟩
    obtain ⟨zs, rfl⟩ := List.head?_eq_some_iff.mp hz
    obtain ⟨o, rfl, hlexemes⟩ := lexemes_of_isBare hbare
    refine hbrace hlacks ?_
    rw [printed, List.flatMap_cons, hlexemes]
    exact first_selectionSet _ _
  · obtain ⟨hlacks, hfirst⟩ : x.lacksBody = true ∧ first (printed xs) = .leftBrace := by
      simpa using hbrace
    cases xs with
    | nil => cases hfirst
    | cons z zs =>
      obtain ⟨o, rfl, hlexemes⟩ :=
        lexemes_of_isBare ((begins_definition false z (printed zs)).2 hfirst)
      have hy := operation?_of_definition hr (startsOperation_of_lacksBody hlacks)
      rw [List.flatMap_cons, hlexemes] at hlen hv hr
      rw [← List.append_assoc] at hlen hr
      have hset : ∀ l ∈ o.selectionSet.lexemes ++ printed zs, l.Valid := fun l hl =>
        hv l (List.mem_append_right _ hl)
      exact Or.inr ⟨hlacks, hy, o, zs, rfl, takesOnly_definition hset hx hlacks hlen y c hr⟩

/-- **If no operation gets lost, the definitions stand apart.** There are never more operations than
have been printed. -/
theorem operations_of_run {l : Nat} : ∀ {n : Nat} {xs ys : List Definition} {d : Cursor}, n ≤ l →
    (printed xs).length < n → (∀ x ∈ xs, x.Shaped) → (∀ l ∈ printed xs, l.Valid) →
    repeatWhile (fun t => !t.isEnd) (definition l) n (.plain (.plain block) (printed xs)) =
      .ok (ys, d) →
    (ys.filterMap Definition.operation?).length ≤ (xs.filterMap Definition.operation?).length ∧
      ((ys.filterMap Definition.operation?).length = (xs.filterMap Definition.operation?).length →
        Apart (xs.map (·, false))) := by
  intro n
  induction n with
  | zero => exact fun _ h => absurd h (Nat.not_lt_zero _)
  | succ n ih =>
    intro xs ys d hn hlen hshaped hv hr
    cases xs with
    | nil =>
      cases hr
      exact ⟨le_rfl, fun _ => .nil⟩
    | cons x xs =>
      obtain ⟨hx, hxs⟩ := List.forall_mem_cons.mp hshaped
      have hpos := List.length_pos_iff.mpr (x.lexemes_ne_nil false)
      have hlen' : (x.lexemes false).length + (printed xs).length < n + 1 := by
        simpa [printed] using hlen
      rw [repeatWhile] at hr
      obtain ⟨b, _, hb, hr⟩ := bind_eq_ok hr
      cases hb
      have hend : (Cursor.plain (.plain block) (printed (x :: xs))).current.isEnd = false :=
        isEnd_definition false x (printed xs)
      simp only [hend, Bool.not_false, if_true] at hr
      obtain ⟨y, c, hy, hr⟩ := bind_eq_ok hr
      obtain ⟨ys, _, hys, hr⟩ := bind_eq_ok hr
      cases hr
      rcases definition_cases (by omega) hx hv hy with ⟨rfl, rfl, hapart⟩ | ⟨hlacks, hnone, o, zs, rfl, rfl⟩
      · obtain ⟨hle, hapart'⟩ := ih (by omega) (by omega) hxs
          (fun l hl => hv l (List.mem_append_right _ hl)) hys
        have hchain : Apart (xs.map (·, false)) → Apart ((x :: xs).map (·, false)) := by
          intro h
          cases xs with
          | nil => exact .singleton _
          | cons z zs => exact .cons_cons (hapart z rfl) h
        rw [List.filterMap_cons, List.filterMap_cons, Definition.operation?_relabel]
        cases x.operation? with
        | none => exact ⟨hle, fun h => hchain (hapart' h)⟩
        | some o => exact ⟨Nat.succ_le_succ hle, fun h => hchain (hapart' (Nat.succ.inj h))⟩
      · have hle : (printed zs).length ≤ (printed (.operation o :: zs)).length := by
          rw [printed, printed, List.flatMap_cons, List.length_append]
          exact Nat.le_add_left _ _
        obtain ⟨hle, -⟩ := ih (by omega) (by omega) (fun x hx => hxs x (by simp [hx]))
          (fun l hl => hv l (List.mem_append_right _ (List.mem_append_right _ hl))) hys
        have hx : x.operation? = none := by
          cases x <;> first | rfl | cases hlacks
        rw [List.filterMap_cons_none hnone, List.filterMap_cons_none hx,
          List.filterMap_cons_some (rfl : (Definition.operation o).operation? = some o),
          List.length_cons]
        exact ⟨by omega, fun h => by omega⟩

end Runs

end Rule

/-! ### Printed documents -/

section Documents
variable {s : Source} {d : Document}

/-- **Printing keeps the operations exactly if the definitions stand apart**: only before an
operation printed as its selection set alone does a definition without its body change what is
read. -/
theorem operations_print_iff (h : s.parse = .ok d) (style : Style) (name : Option String) :
    (∃ d', Source.parse ⟨d.print style, name⟩ = .ok d' ∧
      d'.operationKeys.Perm d.operationKeys) ↔ d.Apart := by
  have hd := Source.wellFormed_of_parse h
  constructor
  · rintro ⟨d', hd', hperm⟩
    obtain ⟨ts, n, hs, hls⟩ := stream_print hd.valid style name
    have hrun := (definitions_plain hs (TokenStream.proper_ofChars _ _ _) hls).1 d'
      (Source.stream_of_parse hd')
    refine (Rule.operations_of_run le_rfl (Nat.lt_succ_self _) hd.shaped hd.valid hrun).2 ?_
    rw [operations_relabel, List.length_map]
    simpa [Document.operationKeys, Document.operations] using hperm.length_eq
  · intro hapart
    obtain ⟨d', hd', hsame⟩ := exists_parse_print hd hapart style name
    refine ⟨d', hd', ?_⟩
    rw [← Document.operationKeys_relabel .erase d', ← Document.operationKeys_relabel .print d]
    change ((relabel .erase d'.definitions).filterMap Definition.operation?).map _ |>.Perm _
    rw [hsame]
    rfl

/-- A type without a body before an operation that keeps its word. -/
theorem operations_print_mutation : ∃ d d',
    Source.parse ⟨"type A mutation \x7b a \x7d", none⟩ = .ok d ∧
      Source.parse ⟨d.print, none⟩ = .ok d' ∧ d'.operationKeys = [(none, .mutation)] := by
  have hparse : Source.parse ⟨"type A mutation \x7b a \x7d", none⟩ =
      .ok ⟨[.type (.object ⟨none, ⟨"A", ⟨5, 6⟩⟩, [], [], [], ⟨0, 6⟩⟩), .operation ⟨.mutation, none,
        [], [], ⟨[.field ⟨none, ⟨"a", ⟨18, 19⟩⟩, [], [], none, ⟨18, 19⟩⟩], ⟨16, 21⟩⟩, ⟨7, 21⟩⟩],
        ⟨0, 21⟩⟩ := by decide +kernel
  obtain ⟨d', hd', hperm⟩ := (operations_print_iff hparse {} none).mpr
    (.cons_cons (fun _ => rfl) (.singleton _))
  exact ⟨_, d', hparse, hd', List.perm_singleton.mp hperm⟩

/-- Printed before its selection set alone, a type without a body takes it for its own. -/
theorem operations_print_query : ¬ ∀ (s : Source) (d : Document), s.parse = .ok d →
    ∀ (style : Style) (name : Option String), ∃ d', Source.parse ⟨d.print style, name⟩ = .ok d' ∧
      d'.operationKeys.Perm d.operationKeys := by
  intro hall
  have hparse : Source.parse ⟨"type A query \x7b a \x7d", none⟩ =
      .ok ⟨[.type (.object ⟨none, ⟨"A", ⟨5, 6⟩⟩, [], [], [], ⟨0, 6⟩⟩), .operation ⟨.query, none,
        [], [], ⟨[.field ⟨none, ⟨"a", ⟨15, 16⟩⟩, [], [], none, ⟨15, 16⟩⟩], ⟨13, 18⟩⟩, ⟨7, 18⟩⟩],
        ⟨0, 18⟩⟩ := by decide +kernel
  have hprint : Document.print ⟨[.type (.object ⟨none, ⟨"A", ⟨5, 6⟩⟩, [], [], [], ⟨0, 6⟩⟩),
      .operation ⟨.query, none, [], [], ⟨[.field ⟨none, ⟨"a", ⟨15, 16⟩⟩, [], [], none, ⟨15, 16⟩⟩],
        ⟨13, 18⟩⟩, ⟨7, 18⟩⟩], ⟨0, 18⟩⟩ {} = "type A\n\n\x7b\n  a\n\x7d\n" := by decide +kernel
  have herror : Source.parse ⟨"type A\n\n\x7b\n  a\n\x7d\n", none⟩ =
      .error ⟨.unexpected (.kind .colon) ⟨.rightBrace, none, ⟨14, 15⟩⟩, ⟨5, 1⟩⟩ := by decide +kernel
  obtain ⟨d', hd', -⟩ := hall _ _ hparse {} none
  rw [hprint, herror] at hd'
  cases hd'

end Documents

end QueryDocs
