import QueryDocs.Proofs.Grammar.Ends
import QueryDocs.Proofs.Grammar.ReadsTypeSystem

/-! # What the rules for definitions and documents read -/

namespace QueryDocs.Rule

open Lexeme (mark word)

section Document
variable {φ : Nat → Nat} (hφ : Monotone φ) {l limit : Nat} {c : Cursor} (hc : c.Within l)
include hφ hc

theorem reads_extension :
    Reads φ limit (extension l) (extension limit) c
      fun x ls => (∃ full, ls = (Definition.extension x).lexemes full) ∧
        (Definition.extension x).Shaped := by
  have hsample : Completable (TypeRead none) [] := completable_typeRead none
  obtain ⟨w, t, hw, ⟨full, hfull⟩, hnone, ht⟩ := hsample
  refine Reads.start ?_
  refine Reads.bind hc (reads_expectWord hc (by decide)) (fun _ d _ hd => ?_) fun _ _ =>
    ⟨w, ⟨t, .empty 0⟩, hw, ⟨full, congrArg (word "extend" :: ·) hfull⟩, hnone, ht⟩
  refine Reads.start ?_
  refine (reads_typeDefinition hφ hd _ none).bind_within (fun _ _ _ _ _ hw hp => hw.passes hp)
    (fun t _ ts _ _ ht => ?_) fun _ _ _ t ls ht => ?_
  · obtain ⟨⟨full, hfull⟩, hnone, ht⟩ := ht
    refine Reads.spanFrom hφ fun _ => .pure ⟨⟨full, ?_⟩, hnone, ht⟩ rfl
    simpa [Definition.lexemes] using hfull
  · obtain ⟨⟨full, hfull⟩, hnone, ht⟩ := ht
    exact ⟨[], ⟨t, .empty 0⟩, rfl, ⟨full, by simpa [Definition.lexemes] using hfull⟩, hnone, ht⟩

/-- What is read as a definition behind a description, if there is one. -/
def SystemRead (description : Option StringValue) (x : Definition) (ls : List Lexeme) : Prop :=
  (∃ full, descriptionLexemes description ++ ls = x.lexemes full) ∧ x.Shaped ∧
    ∀ full, x.isBare full = false

omit hφ hc in
theorem TypeRead.system {description : Option StringValue} {t : TypeDefinition} {ls : List Lexeme}
    (h : TypeRead description t ls) : SystemRead description (.type t) ls :=
  ⟨h.1, h.2.2, fun _ => rfl⟩

theorem reads_typeSystemDefinition (description : Option StringValue) :
    Reads φ limit (typeSystemDefinition l description)
      (typeSystemDefinition limit (relabel (.move φ) description)) c (SystemRead description) := by
  refine Reads.startOf description fun start => Reads.get (fun c' h => by rw [h]) ?_
  refine Reads.ite (fun h => ?_) fun _ => Reads.ite (fun h => ?_) fun _ => ?_
  · exact (reads_schema hφ hc start description h).map
      (fun d ls h => ⟨⟨false, h.1⟩, h.2, fun _ => rfl⟩) fun _ => rfl
  · exact (reads_directiveDefinition hφ hc start description h).map
      (fun d ls h => ⟨h.1, h.2, fun _ => rfl⟩) fun _ => rfl
  · exact (reads_typeDefinition hφ hc start description).map (fun _ _ => TypeRead.system) fun _ => rfl

/-- What is read as a definition from a token on. Only from a brace on it may be a selection set
alone. -/
def DefinitionRead (t : Token) (x : Definition) (ls : List Lexeme) : Prop :=
  ∃ full, ls = x.lexemes full ∧ x.Shaped ∧ (x.isBare full = true → t.kind = .leftBrace)

omit hφ hc in
theorem SystemRead.definition {t : Token} {description : Option StringValue} {x : Definition}
    {ls : List Lexeme} (h : SystemRead description x ls) :
    DefinitionRead t x (descriptionLexemes description ++ ls) := by
  obtain ⟨⟨full, hfull⟩, hx, hbare⟩ := h
  exact ⟨full, hfull, hx, fun h => by rw [hbare] at h; cases h⟩

/-- **A definition is read as it is written.** -/
theorem reads_definition :
    Reads φ limit (definition l) (definition limit) c (DefinitionRead c.current) := by
  refine Reads.get (fun c' h => by rw [h]) ?_
  refine Reads.ite (fun _ => ?_) fun _ => Reads.ite (fun h => ?_) fun _ =>
    Reads.ite (fun _ => ?_) fun _ => Reads.ite (fun _ => ?_) fun _ => ?_
  · refine (reads_operation hφ hc).map (fun x ls h => ?_) fun _ => rfl
    obtain ⟨rfl, hx⟩ := h
    refine ⟨_, rfl, hx, fun hbare => ?_⟩
    simp only [Definition.isBare, Bool.and_eq_true, Bool.not_eq_true', bne_eq_false_iff_eq] at hbare
    exact hbare.2
  · refine Reads.bind hc (reads_stringValue hc h) (fun v d _ hd => ?_) fun v _ => ?_
    · exact (reads_typeSystemDefinition hφ hd (some v)).imp fun x ls h => h.definition
    · obtain ⟨w, t, hw, ht⟩ := completable_typeRead (some v)
      exact ⟨w, .type t, hw, ht.system.definition⟩
  · refine (reads_fragment hφ hc).map (fun x ls h => ?_) fun _ => rfl
    obtain ⟨rfl, hx⟩ := h
    exact ⟨false, rfl, hx, fun h => by cases h⟩
  · refine (reads_extension hφ hc).map (fun x ls h => ?_) fun _ => rfl
    obtain ⟨⟨full, rfl⟩, hx⟩ := h
    exact ⟨full, rfl, hx, fun h => by cases h⟩
  · exact (reads_typeSystemDefinition hφ hc none).imp fun x ls h => h.definition

omit hφ hc in
theorem DefinitionRead.ne_nil {t : Token} {x : Definition} : ¬ DefinitionRead t x [] := by
  rintro ⟨full, hx, -, -⟩
  exact x.lexemes_ne_nil full hx.symm

/-- What is read as definitions from a token on. -/
def DefinitionsRead (t : Token) (xs : List Definition) (ls : List Lexeme) : Prop :=
  ∃ ws : List Written, ws.map Prod.fst = xs ∧ ls = ws.flatMap Written.lexemes ∧
    (∀ x ∈ xs, x.Shaped) ∧ Apart ws ∧ ∀ w ∈ ws.head?, w.1.isBare w.2 = true → t.kind = .leftBrace

omit hφ hc in
theorem DefinitionsRead.cons {c d : Cursor} {x : Definition} {xs : List Definition}
    {ls ms : List Lexeme} (hr : definition limit c = .ok (x, d)) (h : DefinitionRead c.current x ls)
    (hs : DefinitionsRead d.current xs ms) : DefinitionsRead c.current (x :: xs) (ls ++ ms) := by
  obtain ⟨full, rfl, hx, hbare⟩ := h
  obtain ⟨ws, rfl, rfl, hxs, hapart, hhead⟩ := hs
  refine ⟨(x, full) :: ws, rfl, rfl, List.forall_mem_cons.mpr ⟨hx, hxs⟩, ?_, by simpa using hbare⟩
  cases ws with
  | nil => exact .singleton _
  | cons w ws =>
    refine .cons_cons (fun hlacks => ?_) hapart
    cases hw : w.1.isBare w.2 with
    | false => rfl
    | true => exact absurd (hhead w rfl hw) ((ends_definition hr).2 hlacks)

omit hc in
/-- **Definitions are read as they are written**, one after the other. -/
theorem reads_definitions (hc : c.Within l) :
    Reads φ limit (repeatWhile (fun t => !t.isEnd) (definition l) l)
      (repeatWhile (fun t => !t.isEnd) (definition limit) limit) c (DefinitionsRead c.current) := by
  refine reads_rounds (fun _ => rfl) (fun _ hc _ => reads_definition hφ hc)
    (fun _ _ => DefinitionRead.ne_nil) (fun _ => ⟨[], rfl, rfl, by simp, .nil, by simp⟩)
    (fun t x ls h => ?_) (fun c d x ls xs ms hr h hs => hs.cons hr h) le_rfl le_rfl le_rfl hc
  obtain ⟨full, rfl, hx, hbare⟩ := h
  exact ⟨[(x, full)], rfl, by simp [Written.lexemes], by simpa using hx, .singleton _,
    by simpa using hbare⟩

end Document

end QueryDocs.Rule
