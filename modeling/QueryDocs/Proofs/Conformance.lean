import QueryDocs.Proofs.Document.NodeShape
import QueryDocs.Proofs.SpanTree

/-! # Documents that were read conform

The conditions on documents are enforced in different places: by the tokens, by the lists, by what a
rule looks ahead to and by the mark for constant values that the rules pass down. A document that was
read satisfies all of them at every node (`Source.conforms_of_parse`). -/

namespace QueryDocs

/-- What a document has to satisfy at its nodes. -/
structure Document.Conforms (d : Document) : Prop where
  /-- Names are names. -/
  name : ∀ n, (Node.document d).Holds (.name n) → NameText.IsName n.text.toList
  /-- There is a selection in every selection set. -/
  selectionSet : ∀ x, (Node.document d).Holds (.selectionSet x) → x.selections ≠ []
  /-- There is a root type in every schema. -/
  schema : ∀ x, (Node.document d).Holds (.definition (.schema x)) → x.operationTypes ≠ []
  /-- There is a place where every directive can stand. -/
  locations : ∀ x, (Node.document d).Holds (.definition (.directive x)) → x.locations ≠ []
  /-- Null is not excluded twice. -/
  nonNull : ∀ t, (Node.document d).Holds (.typeRef (.nonNull t)) → ∀ u, t.nullable ≠ .nonNull u
  /-- No fragment is named `on`. -/
  fragment : ∀ x, (Node.document d).Holds (.definition (.fragment x)) → x.name.text ≠ "on"
  /-- No fragment is used by the name `on`. -/
  spread : ∀ x, (Node.document d).Holds (.selection (.spread x)) → x.name.text ≠ "on"
  /-- A member of an enumeration is not named like another value. -/
  enum : ∀ v, (Node.document d).Holds (.value (.enum v)) → v.text ∉ ["true", "false", "null"]
  /-- No member of an enumeration is declared with such a name. -/
  enumValue : ∀ v, (Node.document d).Holds (.enumValue v) → v.name.text ∉ ["true", "false", "null"]
  /-- The default values of variables are constant. -/
  variableDefault : ∀ x, (Node.document d).Holds (.variableDefinition x) →
    ∀ v ∈ x.default, v.isConst = true
  /-- The default values of arguments and fields are constant. -/
  inputDefault : ∀ x, (Node.document d).Holds (.inputValue x) → ∀ v ∈ x.default, v.isConst = true
  /-- The arguments of the directives on a variable are constant. -/
  variableDirective : ∀ x, (Node.document d).Holds (.variableDefinition x) →
    ∀ y ∈ x.directives, ∀ a ∈ y.arguments, a.value.isConst = true
  /-- All arguments inside a definition that cannot be executed are constant. -/
  argument : ∀ x, (Node.document d).Holds (.definition x) → x.isExecutable = false →
    ∀ a, (Node.definition x).Holds (.argument a) → a.value.isConst = true
  /-- An interface behind the first one is not named like a word that a definition starts with. -/
  interfaces : ∀ x, (Node.document d).Holds (.definition (.type (.object x))) ∨
    (Node.document d).Holds (.definition (.type (.interface x))) →
      ∀ t ∈ x.interfaces.tail, t.name.text ∉ Rule.definitionWords
  /-- What is added to a type has no description. -/
  extension : ∀ x, (Node.document d).Holds (.definition (.extension x)) →
    x.definition.description = none
  /-- The kind of operation is the one that the word names. -/
  rootOperationType : ∀ x, (Node.document d).Holds (.rootOperationType x) →
    x.operation = OperationType.ofKeyword? x.keyword.text
  /-- Of the control characters, block strings hold tabs and line feeds alone. -/
  blockString : ∀ v, (Node.document d).Holds (.value (.string v)) → v.block = true →
    ∀ c ∈ v.text.toList, c.toNat < 0x20 → c = '\t' ∨ c = '\n'

section Conforms
variable {s : Source} {d : Document} {n : Node}

theorem Source.valid_of_holds (h : s.parse = .ok d) (hn : (Node.document d).Holds n) :
    ∀ l ∈ n.lexeme?, l.Valid := by
  obtain ⟨-, ts, c, e, hopen, hrun⟩ := Source.run_of_parse h
  obtain ⟨us, hp, hlaid⟩ := hrun.laid hopen.within
  intro l hl
  rcases hlaid.of_holds hn with rfl | ⟨vs, hvs, hplaced⟩
  · cases hl
  · obtain ⟨t, rfl, rfl⟩ := hplaced.token hl
    exact hopen.within.valid_of_passes hp t (hvs.subset List.mem_cons_self)

theorem Source.shaped_of_holds (h : s.parse = .ok d) (hn : (Node.document d).Holds n) :
    n.Shaped false :=
  Node.Shaped.of_holds (n := .document d) ⟨rfl, (Source.wellFormed_of_parse h).shaped⟩ hn

theorem TypeRef.Shaped.nullable_ne {t : NonNullType} (h : (TypeRef.nonNull t).Shaped)
    (u : NonNullType) : t.nullable ≠ .nonNull u := by
  obtain ⟨t, s⟩ := t
  rintro rfl
  exact h

/-- **A document that was read conforms.** -/
theorem Source.conforms_of_parse (h : s.parse = .ok d) : d.Conforms where
  name n hn := Source.valid_of_holds h hn _ rfl
  selectionSet x hx := by
    obtain ⟨xs, s⟩ := x
    exact (Source.shaped_of_holds h hx).2.1
  schema x hx := (Source.shaped_of_holds h hx).2.2.1
  locations x hx := (Source.shaped_of_holds h hx).2.2
  nonNull t ht := TypeRef.Shaped.nullable_ne (Source.shaped_of_holds h ht)
  fragment x hx := (Source.shaped_of_holds h hx).2.1
  spread x hx := (Source.shaped_of_holds h hx).2.1
  enum v hv := Source.shaped_of_holds h hv
  enumValue v hv := (Source.shaped_of_holds h hv).1
  variableDefault x hx v hv := ((Source.shaped_of_holds h hx).2.2.1 v hv).isConst
  inputDefault x hx v hv := ((Source.shaped_of_holds h hx).2.1 v hv).isConst
  variableDirective x hx y hy a ha := ((Source.shaped_of_holds h hx).2.2.2 y hy a ha).isConst
  argument x hx hexecutable a ha := by
    have hshaped : (Node.definition x).Shaped true :=
      ⟨fun _ => hexecutable, (Source.shaped_of_holds h hx).2⟩
    exact (hshaped.of_holds ha : a.Shaped true).isConst
  interfaces x hx := by
    rcases hx with hx | hx
    · exact (Source.shaped_of_holds h hx).2.1
    · exact (Source.shaped_of_holds h hx).2.1
  extension x hx := (Source.shaped_of_holds h hx).2.1
  rootOperationType x hx := Source.shaped_of_holds h hx
  blockString v hv hblock c hc hlow := by
    have hvalid : v.lexeme.Valid := Source.valid_of_holds h hv _ rfl
    rw [StringValue.lexeme, if_pos hblock] at hvalid
    rcases hvalid c hc with hhigh | hc
    · omega
    · exact hc

/-- The argument of a directive on a member of an enumeration is constant. -/
theorem Source.conforms_of_parse_enum : ∃ d x a,
    Source.parse ⟨"enum E \x7b A @d(x: [B]) \x7d", none⟩ = .ok d ∧ d.Conforms ∧
      (Node.document d).Holds (.definition x) ∧ x.isExecutable = false ∧
      (Node.definition x).Holds (.argument a) ∧ a.value.isConst = true := by
  have hparse : Source.parse ⟨"enum E \x7b A @d(x: [B]) \x7d", none⟩ = .ok ⟨[.type (.enum ⟨none,
      ⟨"E", ⟨5, 6⟩⟩, [], [⟨none, ⟨"A", ⟨9, 10⟩⟩, [⟨⟨"d", ⟨12, 13⟩⟩, [⟨⟨"x", ⟨14, 15⟩⟩,
        .list ⟨[.enum ⟨"B", ⟨18, 19⟩⟩], ⟨17, 20⟩⟩, ⟨14, 20⟩⟩], ⟨11, 21⟩⟩], ⟨9, 21⟩⟩],
      ⟨0, 23⟩⟩)], ⟨0, 23⟩⟩ := by decide +kernel
  have hdefinition : ∀ (x : Definition) (z : Span), (Node.document ⟨[x], z⟩).Holds (.definition x) :=
    fun x z => .single List.mem_cons_self
  have hargument : ∀ (n m l : Name) (a : Argument) (x y z : Span), (Node.definition (.type (.enum
      ⟨none, n, [], [⟨none, m, [⟨l, [a], x⟩], y⟩], z⟩))).Holds (.argument a) := fun n m l a x y z =>
    .head (b := .enumValue ⟨none, m, [⟨l, [a], x⟩], y⟩) (List.mem_cons_of_mem _ List.mem_cons_self)
      (.head (b := .directive ⟨l, [a], x⟩) (List.mem_cons_of_mem _ List.mem_cons_self)
        (.single (List.mem_cons_of_mem _ List.mem_cons_self)))
  have hconforms := Source.conforms_of_parse hparse
  exact ⟨_, _, _, hparse, hconforms, hdefinition _ _, rfl, hargument _ _ _ _ _ _ _,
    hconforms.argument _ (hdefinition _ _) rfl _ (hargument _ _ _ _ _ _ _)⟩

end Conforms

end QueryDocs
