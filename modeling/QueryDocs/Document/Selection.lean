import QueryDocs.Document.TypeRef
import QueryDocs.Document.Value

/-! # Selections

What an operation or a fragment asks for: fields with arguments, fragments by name, and fragments in
place. Fields and fragments in place hold selections in turn. -/

namespace QueryDocs

/-- A named value given to a field or a directive. -/
structure Argument where
  /-- The name of the argument. -/
  name : Name
  /-- Its value. -/
  value : Value
  /-- The bytes it was read from. -/
  span : Span
deriving DecidableEq

/-- A use of a directive. -/
structure Directive where
  /-- The name behind the at sign. -/
  name : Name
  /-- The arguments in order. -/
  arguments : List Argument
  /-- The bytes it was read from. -/
  span : Span
deriving DecidableEq

/-- A use of a fragment by its name. -/
structure FragmentSpread where
  /-- The name of the fragment. -/
  name : Name
  /-- The directives in order. -/
  directives : List Directive
  /-- The bytes it was read from. -/
  span : Span
deriving DecidableEq

mutual

/-- One thing selected. -/
inductive Selection where
  | field (f : FieldSelection)
  | spread (f : FragmentSpread)
  | inline (f : InlineFragment)

/-- A selected field. -/
structure FieldSelection where
  /-- The name the field has in the response, where it is not the field's own. -/
  aliasName : Option Name
  /-- The name of the field. -/
  name : Name
  /-- The arguments in order. -/
  arguments : List Argument
  /-- The directives in order. -/
  directives : List Directive
  /-- What is selected of the field's value. -/
  selectionSet : Option SelectionSet
  /-- The bytes it was read from. -/
  span : Span

/-- A fragment in place. -/
structure InlineFragment where
  /-- The type it applies to, if that is given. -/
  typeCondition : Option NamedType
  /-- The directives in order. -/
  directives : List Directive
  /-- What the fragment selects. -/
  selectionSet : SelectionSet
  /-- The bytes it was read from. -/
  span : Span

/-- Selections in braces. -/
structure SelectionSet where
  /-- The selections in order. -/
  selections : List Selection
  /-- The bytes it was read from. -/
  span : Span

end

/-! ### Equality -/

mutual

/-- Whether two selections are the same, spans included. -/
def Selection.same : Selection → Selection → Bool
  | .field f, .field g => f.same g
  | .spread f, .spread g => f == g
  | .inline f, .inline g => f.same g
  | _, _ => false

/-- Whether two fields are the same. -/
def FieldSelection.same : FieldSelection → FieldSelection → Bool
  | ⟨a, n, as, ds, none, s⟩, ⟨b, m, bs, es, none, t⟩ =>
    a == b && n == m && as == bs && ds == es && s == t
  | ⟨a, n, as, ds, some x, s⟩, ⟨b, m, bs, es, some y, t⟩ =>
    a == b && n == m && as == bs && ds == es && x.same y && s == t
  | _, _ => false

/-- Whether two fragments in place are the same. -/
def InlineFragment.same : InlineFragment → InlineFragment → Bool
  | ⟨c, ds, x, s⟩, ⟨d, es, y, t⟩ => c == d && ds == es && x.same y && s == t

/-- Whether two selection sets are the same. -/
def SelectionSet.same : SelectionSet → SelectionSet → Bool
  | ⟨xs, s⟩, ⟨ys, t⟩ => Selection.sameAll xs ys && s == t

/-- Whether two sequences of selections are the same. -/
def Selection.sameAll : List Selection → List Selection → Bool
  | [], [] => true
  | x :: xs, y :: ys => x.same y && Selection.sameAll xs ys
  | _, _ => false

end

mutual

theorem Selection.same_iff : ∀ x y : Selection, x.same y = true ↔ x = y
  | .field f, y => by
    cases y with
    | field g => simp [Selection.same, FieldSelection.same_iff f g]
    | _ => simp [Selection.same]
  | .spread f, y => by cases y <;> simp [Selection.same]
  | .inline f, y => by
    cases y with
    | inline g => simp [Selection.same, InlineFragment.same_iff f g]
    | _ => simp [Selection.same]

theorem FieldSelection.same_iff : ∀ f g : FieldSelection, f.same g = true ↔ f = g
  | ⟨a, n, as, ds, none, s⟩, ⟨b, m, bs, es, none, t⟩ => by
    simp [FieldSelection.same, and_assoc]
  | ⟨a, n, as, ds, some x, s⟩, ⟨b, m, bs, es, some y, t⟩ => by
    simp [FieldSelection.same, SelectionSet.same_iff x y, and_assoc]
  | ⟨_, _, _, _, none, _⟩, ⟨_, _, _, _, some _, _⟩ => by simp [FieldSelection.same]
  | ⟨_, _, _, _, some _, _⟩, ⟨_, _, _, _, none, _⟩ => by simp [FieldSelection.same]

theorem InlineFragment.same_iff : ∀ f g : InlineFragment, f.same g = true ↔ f = g
  | ⟨c, ds, x, s⟩, ⟨d, es, y, t⟩ => by
    simp [InlineFragment.same, SelectionSet.same_iff x y, and_assoc]

theorem SelectionSet.same_iff : ∀ x y : SelectionSet, x.same y = true ↔ x = y
  | ⟨xs, s⟩, ⟨ys, t⟩ => by simp [SelectionSet.same, Selection.sameAll_iff xs ys]

theorem Selection.sameAll_iff :
    ∀ xs ys : List Selection, Selection.sameAll xs ys = true ↔ xs = ys
  | [], [] => by simp [Selection.sameAll]
  | [], _ :: _ => by simp [Selection.sameAll]
  | _ :: _, [] => by simp [Selection.sameAll]
  | x :: xs, y :: ys => by
    simp [Selection.sameAll, Selection.same_iff x y, Selection.sameAll_iff xs ys]

end

instance : DecidableEq Selection := fun x y => decidable_of_iff _ (Selection.same_iff x y)

instance : DecidableEq FieldSelection := fun x y => decidable_of_iff _ (FieldSelection.same_iff x y)

instance : DecidableEq InlineFragment := fun x y => decidable_of_iff _ (InlineFragment.same_iff x y)

instance : DecidableEq SelectionSet := fun x y => decidable_of_iff _ (SelectionSet.same_iff x y)

/-! ### Observations -/

/-- The bytes a selection was read from. -/
def Selection.span : Selection → Span
  | .field f => f.span
  | .spread f => f.span
  | .inline f => f.span

/-- The name a field has in the response: its alias, or else its own name. -/
def FieldSelection.responseKey (f : FieldSelection) : String := (f.aliasName.getD f.name).text

end QueryDocs
