import QueryDocs.Grammar.Parse
import QueryDocs.Proofs.Grammar.TakesTypeSystem

/-! # Definitions are read back -/

namespace QueryDocs

open Lexeme (mark word first)

/-- The description of a definition that cannot be executed, extensions aside. -/
def Definition.system? : Definition → Option (Option StringValue)
  | .schema d => some d.description
  | .type d => some d.description
  | .directive d => some d.description
  | _ => none

namespace Rule

variable {block : String → Bool} {limit : Nat} {ks : List Lexeme}

/-- The words that the definitions of types start with. -/
def typeWords : List String := ["scalar", "type", "interface", "union", "enum", "input"]

theorem lexemes_type (full : Bool) (d : TypeDefinition) :
    ∃ w ∈ typeWords, ∃ ls, d.lexemes full = descriptionLexemes d.description ++ word w :: ls := by
  simp only [TypeDefinition.lexemes, typeLexemes, CompositeDefinition.lexemes, List.append_assoc,
    List.cons_append]
  cases d
  · exact ⟨"scalar", by decide, _, rfl⟩
  · exact ⟨"type", by decide, _, rfl⟩
  · exact ⟨"interface", by decide, _, rfl⟩
  · exact ⟨"union", by decide, _, rfl⟩
  · exact ⟨"enum", by decide, _, rfl⟩
  · exact ⟨"input", by decide, _, rfl⟩

/-- The words that the definitions start with that may have a description. -/
def systemWords : List String := "schema" :: "directive" :: typeWords

theorem lexemes_system (full : Bool) {x : Definition} {v : Option StringValue}
    (hx : x.system? = some v) :
    ∃ w ∈ systemWords, ∃ ls, x.lexemes full = descriptionLexemes v ++ word w :: ls := by
  cases x with
  | schema d =>
    cases hx
    simp only [Definition.lexemes, SchemaDefinition.lexemes, List.append_assoc, List.cons_append]
    exact ⟨"schema", by decide, _, rfl⟩
  | directive d =>
    cases hx
    simp only [Definition.lexemes, DirectiveDefinition.lexemes, List.append_assoc, List.cons_append]
    exact ⟨"directive", by decide, _, rfl⟩
  | type d =>
    cases hx
    obtain ⟨w, hw, ls, h⟩ := lexemes_type full d
    exact ⟨w, List.mem_cons_of_mem _ (List.mem_cons_of_mem _ hw), ls, h⟩
  | _ => cases hx

theorem takes_typeSystemDefinition {full : Bool} {x : Definition} {v : Option StringValue}
    {ls : List Lexeme} (hsystem : x.system? = some v)
    (hls : x.lexemes full = descriptionLexemes v ++ ls) (hx : x.Shaped) (hk : Starts ks)
    (hbrace : x.lacksBody = true → first ks ≠ .leftBrace) :
    Takes block limit (typeSystemDefinition limit (relabel (.plain block) v)) ls x ks := by
  refine .startOf v (.get ?_)
  cases x with
  | schema d =>
    cases hsystem
    obtain rfl : _ = ls := by simpa [Definition.lexemes, SchemaDefinition.lexemes] using hls
    exact .map (takes_schema hx) rfl
  | directive d =>
    cases hsystem
    obtain rfl : _ = ls := by simpa [Definition.lexemes, DirectiveDefinition.lexemes] using hls
    exact .map (takes_directiveDefinition hx (hk.loose.ne (by decide))) rfl
  | type d =>
    cases hsystem
    obtain ⟨w, hw, ms, hms⟩ := lexemes_type full d
    obtain rfl : ls = word w :: ms := List.append_cancel_left (hls.symm.trans hms)
    have hschema : w ≠ "schema" := by rintro rfl; exact absurd hw (by decide)
    have hdirective : w ≠ "directive" := by rintro rfl; exact absurd hw (by decide)
    exact .else (by simp [Token.isWord, Token.text, hschema])
      (.else (by simp [Token.isWord, Token.text, hdirective])
        (.map (takes_typeDefinition hx hls hk hbrace) rfl))
  | _ => cases hsystem

theorem systemWords_other : ∀ w ∈ systemWords,
    OperationType.ofKeyword? w = none ∧ w ≠ "fragment" ∧ w ≠ "extend" := by decide

theorem startsOperation_of_isString {t : Token} (h : isString t = true) :
    startsOperation t = false := by
  simp only [isString, Bool.or_eq_true, beq_iff_eq] at h
  rcases h with h | h <;> simp [startsOperation, h]

/-- Behind a description, or at a word that may have one, a definition is read that cannot be
executed. -/
theorem definition_system {w : String} (hw : w ∈ systemWords) (v : Option StringValue)
    (ls : List Lexeme) :
    definition limit (.plain (.plain block) (descriptionLexemes v ++ word w :: ls)) =
      typeSystemDefinition limit (relabel (.plain block) v) (.plain (.plain block) (word w :: ls)) := by
  have hchoice : ∀ c : Cursor, definition limit c = (if startsOperation c.current then
      (do return .operation (← operation limit)) else if isString c.current then
      (do typeSystemDefinition limit (some (← stringValue))) else if c.current.isWord "fragment" then
      (do return .fragment (← fragment limit)) else if c.current.isWord "extend" then
      (do return .extension (← extension limit)) else typeSystemDefinition limit none :
        Rule Definition) c := fun _ => rfl
  rw [hchoice]
  cases v with
  | none =>
    obtain ⟨hoperation, hfragment, hextend⟩ := systemWords_other w hw
    have hword : (Cursor.plain (.plain block) (descriptionLexemes none ++ word w :: ls)).current =
        ⟨.name, some w, .empty 0⟩ := rfl
    rw [hword, if_neg (by simp [startsOperation, Token.text, hoperation]), if_neg (by simp [isString]),
      if_neg (by simp [Token.isWord, Token.text, hfragment]),
      if_neg (by simp [Token.isWord, Token.text, hextend])]
    rfl
  | some v =>
    obtain ⟨hstring, htakes⟩ : isString (Cursor.plain (.plain block)
        (descriptionLexemes (some v) ++ word w :: ls)).current = true ∧
        Takes block ((word w :: ls).length + 2) stringValue [v.lexeme] v (word w :: ls) :=
      takes_stringValue v
    rw [startsOperation_of_isString hstring, if_neg (by simp), if_pos hstring]
    exact bind_ok (htakes (by simp))

theorem takes_extension {full : Bool} {x : TypeExtension} (hx : (Definition.extension x).Shaped)
    (hk : Starts ks) (hbrace : x.definition.lacksBody = true → first ks ≠ .leftBrace) :
    Takes block limit (extension limit) (word "extend" :: x.definition.lexemes full) x ks := by
  obtain ⟨d, s⟩ := x
  obtain ⟨hnone, hd⟩ := hx
  have h : Takes block limit (typeDefinition limit 0 none) (d.lexemes full) d ks := by
    have hnone : d.description = none := hnone
    have hls : d.lexemes full = descriptionLexemes d.description ++ d.lexemes full := by
      rw [hnone]
      rfl
    have h : Takes block limit (typeDefinition limit 0 (relabel _ d.description)) _ d ks :=
      takes_typeDefinition hd hls hk hbrace
    rwa [hnone] at h
  exact .start (.bind takes_expectWord (.start (.spanned h rfl)))

/-- An operation starts with a brace or with its word. -/
theorem lexemes_operation (full : Bool) (d : OperationDefinition) (ks : List Lexeme) :
    ((d.isShorthand && !full) = true ∧ first (d.lexemes full ++ ks) = .leftBrace) ∨
      ((d.isShorthand && !full) = false ∧
        ∃ ls, d.lexemes full ++ ks = word d.operation.keyword :: ls) := by
  cases hbare : d.isShorthand && !full with
  | true =>
    obtain ⟨hshort, rfl⟩ : d.isShorthand = true ∧ full = false := by simpa using hbare
    rw [OperationDefinition.lexemes_of_isShorthand hshort]
    exact Or.inl ⟨rfl, first_selectionSet d.selectionSet ks⟩
  | false =>
    rw [OperationDefinition.lexemes_eq_true hbare, OperationDefinition.lexemes_true]
    exact Or.inr ⟨rfl, _, rfl⟩

theorem startsOperation_lexemes (full : Bool) (d : OperationDefinition) :
    startsOperation (head block (d.lexemes full ++ ks)) = true := by
  rcases lexemes_operation full d ks with ⟨-, h⟩ | ⟨-, ls, h⟩
  · rw [startsOperation, Bool.or_eq_true, beq_iff_eq, kind_head_mark rfl]
    exact Or.inl h
  · rw [h]
    cases d.operation <;> rfl

/-- **A definition is read back** before another one or the end, but for a body that is lacking. -/
theorem takes_definition {full : Bool} {x : Definition} (hx : x.Shaped) (hk : Starts ks)
    (hbrace : x.lacksBody = true → first ks ≠ .leftBrace) :
    Takes block limit (definition limit) (x.lexemes full) x ks := by
  cases hsystem : x.system? with
  | some v =>
    obtain ⟨w, hw, ls, hls⟩ := lexemes_system full hsystem
    have h : Takes block limit (typeSystemDefinition limit (relabel _ v)) _ x ks :=
      takes_typeSystemDefinition hsystem hls hx hk hbrace
    intro hlen
    rw [hls, List.append_assoc, List.cons_append] at hlen ⊢
    rw [definition_system hw]
    exact h (by rw [List.length_append] at hlen; exact Nat.lt_of_le_of_lt (Nat.le_add_left _ _) hlen)
  | none =>
    cases x with
    | operation d =>
      exact .get (.then (startsOperation_lexemes full d) (.map (takes_operation hx) rfl))
    | fragment d => exact .get (.map (takes_fragment hx) rfl)
    | extension d => exact .get (.map (takes_extension hx hk hbrace) rfl)
    | _ => cases hsystem

/-! ### Definitions one after the other -/

theorem begins_definition (full : Bool) (x : Definition) (ks : List Lexeme) :
    Begins (x.lexemes full ++ ks) ∧
      (first (x.lexemes full ++ ks) = .leftBrace → x.isBare full = true) := by
  have hword : ∀ {w : String} {ls : List Lexeme}, w ∈ definitionWords →
      Begins (word w :: ls) ∧ (first (word w :: ls) = .leftBrace → x.isBare full = true) :=
    fun {w ls} hw => ⟨Or.inr ⟨w, hw, ls, rfl⟩, fun h => by cases h⟩
  cases hsystem : x.system? with
  | some v =>
    obtain ⟨w, hw, ls, hls⟩ := lexemes_system full hsystem
    rw [hls, List.append_assoc]
    cases v with
    | none => exact hword ((by decide : ∀ w ∈ systemWords, w ∈ definitionWords) w hw)
    | some v =>
      obtain ⟨text, b, s⟩ := v
      cases b
      · exact ⟨Or.inl (by decide : Token.Kind.string ∈ _), fun h => by cases h⟩
      · exact ⟨Or.inl (by decide : Token.Kind.blockString ∈ _), fun h => by cases h⟩
  | none =>
    cases x with
    | operation d =>
      rcases lexemes_operation full d ks with ⟨hbare, h⟩ | ⟨hbare, ls, h⟩
      · exact ⟨Or.inl (by rw [Definition.lexemes, h]; decide), fun _ => hbare⟩
      · rw [Definition.lexemes, h]
        exact hword (by cases d.operation <;> decide)
    | fragment d => exact hword (w := "fragment") (by decide)
    | extension d => exact hword (w := "extend") (by decide)
    | _ => cases hsystem

theorem isEnd_definition (full : Bool) (x : Definition) (ks : List Lexeme) :
    (head block (x.lexemes full ++ ks)).isEnd = false := by
  have hne : first (x.lexemes full ++ ks) ≠ .endOfText := by
    rcases (begins_definition full x ks).1 with h | ⟨v, -, ls, h⟩
    · exact fun he => absurd (he ▸ h) (by decide)
    · exact fun he => by simp [h] at he
  rw [← Bool.not_eq_true, Token.isEnd_iff, kind_head (by decide) (by decide)]
  exact hne

/-- Behind a definition that lacks its body, definitions that stand apart from it do not start with
a brace. -/
theorem starts_definitions {w : Written} {ws : List Written} (h : Apart (w :: ws)) :
    Starts (ws.flatMap Written.lexemes) ∧
      (w.1.lacksBody = true → first (ws.flatMap Written.lexemes) ≠ .leftBrace) := by
  cases ws with
  | nil => exact ⟨Or.inl rfl, fun _ => by decide⟩
  | cons v ws =>
    obtain ⟨hbegins, hbare⟩ := begins_definition v.2 v.1 (ws.flatMap Written.lexemes)
    refine ⟨Or.inr hbegins, fun hlacks hfirst => ?_⟩
    have := (List.isChain_cons_cons.mp h).1 hlacks
    rw [hbare hfirst] at this
    cases this

/-- **Definitions that stand apart are read back**, one after the other. -/
theorem takes_definitions {ws : List Written} (hws : ∀ w ∈ ws, w.1.Shaped) (hapart : Apart ws) :
    ∀ {n : Nat}, n ≤ limit → Takes block n (repeatWhile (fun t => !t.isEnd) (definition limit) n)
      (ws.flatMap Written.lexemes) (ws.map Prod.fst) [] := by
  induction ws with
  | nil =>
    intro n _
    cases n with
    | zero => exact .pure rfl
    | succ n => exact .ifFalse rfl (.pure rfl)
  | cons w ws ih =>
    intro n hn
    cases n with
    | zero => exact fun hlen => absurd hlen (Nat.not_lt_zero _)
    | succ n =>
      obtain ⟨hshaped, hws⟩ := List.forall_mem_cons.mp hws
      obtain ⟨hstarts, hbrace⟩ := starts_definitions hapart
      have hitem : Takes block limit (definition limit) w.lexemes w.1
          (ws.flatMap Written.lexemes ++ []) := by
        rw [List.append_nil]
        exact takes_definition hshaped hstarts hbrace
      rw [List.flatMap_cons]
      have hend : (head block (w.lexemes ++ ws.flatMap Written.lexemes)).isEnd = false :=
        isEnd_definition w.2 w.1 _
      refine .ifTrue (by simp [hend]) (Takes.bind_succ (hitem.mono hn)
        (w.1.lexemes_ne_nil w.2) (.map (ih hws (List.isChain_of_isChain_cons hapart) (by omega)) rfl))

end Rule

end QueryDocs
