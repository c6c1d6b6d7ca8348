import QueryDocs.Proofs.Document.Lexemes

/-! # Braces and bars

The braces among the tokens of a node match each other, and a bar stands among the members of a
union and the places of a directive only. So a closing brace tells where what it closes ends. -/

namespace QueryDocs

open Lexeme (mark word ofOption enclosed barred)

/-- Whether a token is neither a brace nor a bar. -/
def Lexeme.isFlat (l : Lexeme) : Bool :=
  l.1 != .leftBrace && l.1 != .rightBrace && l.1 != .pipe

/-- Braces match each other, and there are no bars. -/
inductive Nested : List Lexeme → Prop where
  | nil : Nested []
  | token {l : Lexeme} (hl : l.isFlat = true) : Nested [l]
  | append {ls ms : List Lexeme} (h : Nested ls) (h' : Nested ms) : Nested (ls ++ ms)
  | braces {ls : List Lexeme} (h : Nested ls) :
    Nested (mark .leftBrace :: ls ++ [mark .rightBrace])

namespace Nested

variable {α : Type} {ls ms : List Lexeme} {f : α → List Lexeme}

theorem cons {l : Lexeme} (hl : l.isFlat = true) (h : Nested ls) : Nested (l :: ls) :=
  .append (.token hl) h

theorem flatMap {xs : List α} (h : ∀ x ∈ xs, Nested (f x)) : Nested (xs.flatMap f) := by
  induction xs with
  | nil => exact .nil
  | cons x xs ih =>
    rw [List.flatMap_cons]
    exact .append (h x (by simp)) (ih fun y hy => h y (by simp [hy]))

theorem ofOption {o : Option α} (h : ∀ x ∈ o, Nested (f x)) : Nested (ofOption f o) := by
  cases o with
  | none => exact .nil
  | some x => exact h x rfl

theorem parens {xs : List α} (h : ∀ x ∈ xs, Nested (f x)) :
    Nested (enclosed .leftParen .rightParen f xs) := by
  cases xs with
  | nil => exact .nil
  | cons x xs => exact .append (.cons rfl (.flatMap h)) (.token rfl)

theorem body {xs : List α} (h : ∀ x ∈ xs, Nested (f x)) : Nested (bodyLexemes f xs) := by
  cases xs with
  | nil => exact .nil
  | cons x xs => exact .braces (.flatMap h)

/-! ### What is nested -/

theorem kind_ne_pipe (h : Nested ls) : ∀ l ∈ ls, l.1 ≠ .pipe := by
  induction h with
  | nil => exact fun l hl => absurd hl List.not_mem_nil
  | token hl =>
    simp only [Lexeme.isFlat, Bool.and_eq_true, bne_iff_ne] at hl
    exact List.forall_mem_singleton.mpr hl.2
  | append _ _ ih ih' => exact List.forall_mem_append.mpr ⟨ih, ih'⟩
  | braces _ ih =>
    exact List.forall_mem_append.mpr ⟨List.forall_mem_cons.mpr ⟨by decide, ih⟩, by simp⟩

/-- How many braces are open behind tokens, if none is closed that is not open. -/
def level : Nat → List Lexeme → Option Nat
  | n, [] => some n
  | n, l :: ls =>
    if l.1 = .leftBrace then level (n + 1) ls
    else if l.1 = .rightBrace then if n = 0 then none else level (n - 1) ls
    else level n ls

theorem level_append (n : Nat) (ls ms : List Lexeme) :
    level n (ls ++ ms) = (level n ls).bind (level · ms) := by
  induction ls generalizing n with
  | nil => rfl
  | cons l ls ih =>
    rw [List.cons_append, level, level]
    split_ifs
    · exact ih _
    · rfl
    · exact ih _
    · exact ih _

theorem level_eq (h : Nested ls) (n : Nat) : level n ls = some n := by
  induction h generalizing n with
  | nil => rfl
  | token hl =>
    simp only [Lexeme.isFlat, Bool.and_eq_true, bne_iff_ne] at hl
    rw [level, if_neg hl.1.1, if_neg hl.1.2]
    rfl
  | append _ _ ih ih' => rw [level_append, ih, Option.bind_some, ih']
  | braces _ ih =>
    rw [List.cons_append, level, if_pos rfl, level_append, ih]
    rfl

/-- **The closing brace that belongs to an opening one is determined.** -/
theorem close_unique (h : Nested ls) (h' : Nested ms) {k k' : List Lexeme}
    (he : ls ++ mark .rightBrace :: k = ms ++ mark .rightBrace :: k') : ls = ms ∧ k = k' := by
  have hprefix : ∀ {ls z k k' : List Lexeme}, Nested ls → Nested (ls ++ z) →
      mark .rightBrace :: k = z ++ mark .rightBrace :: k' → z = [] := by
    intro ls z k k' h h' he
    cases z with
    | nil => rfl
    | cons l z =>
      obtain ⟨rfl, -⟩ := List.cons.inj he
      have := h'.level_eq 0
      rw [level_append, h.level_eq 0] at this
      cases this
  obtain ⟨z, rfl, hz⟩ | ⟨z, rfl, hz⟩ := List.append_eq_append_iff.mp he
  · obtain rfl := hprefix h h' hz
    simpa using hz
  · obtain rfl := hprefix h' h hz
    simpa using hz.symm

end Nested

/-! ### Values and types -/

mutual

theorem Value.nested : (v : Value) → Nested v.lexemes
  | .variable _ | .boolean _ | .null _ | .enum _ | .int _ | .float _ => by
    rw [Value.lexemes]
    first | exact .token rfl | exact .cons rfl (.token rfl)
  | .string v => by
    rw [Value.lexemes]
    refine .token ?_
    cases v with
    | mk text block s => cases block <;> rfl
  | .list ⟨vs, _⟩ => by
    rw [Value.lexemes]
    exact .append (.cons rfl (Value.nested_all vs)) (.token rfl)
  | .object ⟨fs, _⟩ => by
    rw [Value.lexemes]
    exact .braces (ObjectField.nested_all fs)

theorem Value.nested_all : (vs : List Value) → Nested (Value.allLexemes vs)
  | [] => .nil
  | v :: vs => by
    rw [Value.allLexemes]
    exact .append v.nested (Value.nested_all vs)

theorem ObjectField.nested_all : (fs : List ObjectField) → Nested (ObjectField.allLexemes fs)
  | [] => .nil
  | ⟨_, v, _⟩ :: fs => by
    rw [ObjectField.allLexemes]
    exact .append (.cons rfl (.cons rfl v.nested)) (ObjectField.nested_all fs)

end

theorem StringValue.isFlat_lexeme (v : StringValue) : v.lexeme.isFlat = true := by
  cases v with
  | mk text block s => cases block <;> rfl

theorem TypeRef.nested : (t : TypeRef) → Nested t.lexemes
  | .named _ => .token rfl
  | .list ⟨t, _⟩ => .append (.cons rfl t.nested) (.token rfl)
  | .nonNull ⟨t, _⟩ => .append t.nested (.token rfl)

theorem nested_default (v : Option Value) : Nested (defaultLexemes v) :=
  .ofOption fun v _ => .cons rfl v.nested

/-! ### Selections -/

theorem nested_arguments (as : List Argument) : Nested (argumentLexemes as) :=
  .parens fun a _ => .cons rfl (.cons rfl a.value.nested)

theorem nested_directives (ds : List Directive) : Nested (directiveLexemes ds) :=
  .flatMap fun d _ => .cons rfl (.cons rfl (nested_arguments d.arguments))

theorem nested_head (a : Option Name) (n : Name) (as : List Argument) (ds : List Directive) :
    Nested (headLexemes a n as ds) :=
  .append (.append (.ofOption fun _ _ => .cons rfl (.token rfl)) (.cons rfl (nested_arguments as)))
    (nested_directives ds)

mutual

theorem Selection.nested : (x : Selection) → Nested x.lexemes
  | .field f => by
    rw [Selection.lexemes]
    exact f.nested
  | .spread f => by
    rw [Selection.lexemes]
    exact .cons rfl (.cons rfl (nested_directives f.directives))
  | .inline f => by
    rw [Selection.lexemes]
    exact f.nested

theorem FieldSelection.nested : (f : FieldSelection) → Nested f.lexemes
  | ⟨a, n, as, ds, none, _⟩ => by
    rw [FieldSelection.lexemes]
    exact nested_head a n as ds
  | ⟨a, n, as, ds, some x, _⟩ => by
    rw [FieldSelection.lexemes]
    exact .append (nested_head a n as ds) x.nested

theorem InlineFragment.nested : (f : InlineFragment) → Nested f.lexemes
  | ⟨_, ds, x, _⟩ => by
    rw [InlineFragment.lexemes]
    exact .append (.append (.cons rfl (.ofOption fun _ _ => .cons rfl (.token rfl)))
      (nested_directives ds)) x.nested

theorem SelectionSet.nested : (x : SelectionSet) → Nested x.lexemes
  | ⟨xs, _⟩ => by
    rw [SelectionSet.lexemes]
    exact .braces (Selection.nested_all xs)

theorem Selection.nested_all : (xs : List Selection) → Nested (Selection.allLexemes xs)
  | [] => .nil
  | x :: xs => by
    rw [Selection.allLexemes]
    exact .append x.nested (Selection.nested_all xs)

end

/-! ### Definitions -/

theorem OperationDefinition.nested (full : Bool) (d : OperationDefinition) :
    Nested (d.lexemes full) := by
  have hvariable : ∀ v ∈ d.variableDefinitions, Nested v.lexemes := fun v _ =>
    .append (.append (.cons rfl (.cons rfl (.cons rfl v.type.nested))) (nested_default v.default))
      (nested_directives v.directives)
  rw [OperationDefinition.lexemes]
  split_ifs
  · exact .cons rfl d.selectionSet.nested
  · exact d.selectionSet.nested
  · exact .append (.append (.append (.cons rfl (.ofOption fun _ _ => .token rfl))
      (.parens hvariable)) (nested_directives d.directives)) d.selectionSet.nested

theorem FragmentDefinition.nested (d : FragmentDefinition) : Nested d.lexemes :=
  .append (.append (.cons rfl (.cons rfl (.cons rfl (.token rfl))))
    (nested_directives d.directives)) d.selectionSet.nested

theorem nested_description (d : Option StringValue) : Nested (descriptionLexemes d) :=
  .ofOption fun v _ => .token v.isFlat_lexeme

theorem InputValueDefinition.nested (d : InputValueDefinition) : Nested d.lexemes :=
  .append (.append (.append (nested_description d.description)
    (.cons rfl (.cons rfl d.type.nested))) (nested_default d.default))
    (nested_directives d.directives)

theorem nested_declared (ds : List InputValueDefinition) : Nested (declaredLexemes ds) :=
  .parens fun d _ => d.nested

theorem FieldDefinition.nested (d : FieldDefinition) : Nested d.lexemes :=
  .append (.append (.append (nested_description d.description)
    (.cons rfl (nested_declared d.arguments))) (.cons rfl d.type.nested))
    (nested_directives d.directives)

theorem EnumValueDefinition.nested (d : EnumValueDefinition) : Nested d.lexemes :=
  .append (nested_description d.description) (.cons rfl (nested_directives d.directives))

theorem nested_type (description : Option StringValue) (keyword : String) (name : Name) :
    Nested (typeLexemes description keyword name) :=
  .append (nested_description description) (.cons rfl (.token rfl))

theorem CompositeDefinition.nested (keyword : String) (d : CompositeDefinition) :
    Nested (d.lexemes keyword) := by
  have hinterfaces : Nested (interfaceLexemes d.interfaces) := by
    cases d.interfaces with
    | nil => exact .nil
    | cons t ts => exact .cons rfl (.flatMap fun _ _ => .token rfl)
  exact .append (.append (.append (nested_type d.description keyword d.name) hinterfaces)
    (nested_directives d.directives)) (.body fun f _ => f.nested)

theorem SchemaDefinition.nested (d : SchemaDefinition) : Nested d.lexemes := by
  have hroots : Nested (d.operationTypes.flatMap RootOperationType.lexemes) :=
    .flatMap fun t _ => .cons rfl (.cons rfl (.token rfl))
  rw [SchemaDefinition.lexemes, List.append_assoc]
  exact .append (.append (nested_description d.description)
    (.cons rfl (nested_directives d.directives))) (.braces hroots)

end QueryDocs
