import QueryDocs.Span

/-! # Names and references to types

A type is referred to by its name, as the type of lists of some type, or as a type without null. -/

namespace QueryDocs

/-- A name with the span it was read from. -/
structure Name where
  /-- The name itself. -/
  text : String
  /-- The bytes it was read from. -/
  span : Span
deriving DecidableEq, Repr

instance : ToString Name := ⟨Name.text⟩

/-- A name with its text changed; it is still said to be read from the same bytes. -/
def Name.mapText (f : String → String) (n : Name) : Name := { n with text := f n.text }

/-- A type referred to by its name. -/
structure NamedType where
  /-- The name of the type. -/
  name : Name
  /-- The bytes it was read from. -/
  span : Span
deriving DecidableEq, Repr

mutual

/-- A reference to a type. -/
inductive TypeRef where
  | named (t : NamedType)
  | list (t : ListType)
  | nonNull (t : NonNullType)

/-- The type of lists of an item type. -/
structure ListType where
  /-- The type of the items. -/
  item : TypeRef
  /-- The bytes it was read from. -/
  span : Span

/-- A type without null. -/
structure NonNullType where
  /-- The type with null. -/
  nullable : TypeRef
  /-- The bytes it was read from. -/
  span : Span

end

mutual

/-- Whether two references are the same, spans included. -/
def TypeRef.same : TypeRef → TypeRef → Bool
  | .named t, .named u => t == u
  | .list t, .list u => t.same u
  | .nonNull t, .nonNull u => t.same u
  | _, _ => false

/-- Whether two list types are the same. -/
def ListType.same : ListType → ListType → Bool
  | ⟨t, s⟩, ⟨u, r⟩ => t.same u && s == r

/-- Whether two types without null are the same. -/
def NonNullType.same : NonNullType → NonNullType → Bool
  | ⟨t, s⟩, ⟨u, r⟩ => t.same u && s == r

end

mutual

theorem TypeRef.same_iff : ∀ t u : TypeRef, t.same u = true ↔ t = u
  | .named t, u => by cases u <;> simp [TypeRef.same]
  | .list t, u => by
    cases u with
    | list u => simp [TypeRef.same, ListType.same_iff t u]
    | _ => simp [TypeRef.same]
  | .nonNull t, u => by
    cases u with
    | nonNull u => simp [TypeRef.same, NonNullType.same_iff t u]
    | _ => simp [TypeRef.same]

theorem ListType.same_iff : ∀ t u : ListType, t.same u = true ↔ t = u
  | ⟨t, s⟩, ⟨u, r⟩ => by simp [ListType.same, TypeRef.same_iff t u]

theorem NonNullType.same_iff : ∀ t u : NonNullType, t.same u = true ↔ t = u
  | ⟨t, s⟩, ⟨u, r⟩ => by simp [NonNullType.same, TypeRef.same_iff t u]

end

instance : DecidableEq TypeRef := fun t u => decidable_of_iff _ (TypeRef.same_iff t u)

instance : DecidableEq ListType := fun t u => decidable_of_iff _ (ListType.same_iff t u)

instance : DecidableEq NonNullType := fun t u => decidable_of_iff _ (NonNullType.same_iff t u)

/-- The bytes a reference was read from. -/
def TypeRef.span : TypeRef → Span
  | .named t => t.span
  | .list t => t.span
  | .nonNull t => t.span

/-- The named type at the core of a reference. -/
def TypeRef.innermost : TypeRef → NamedType
  | .named t => t
  | .list ⟨t, _⟩ => t.innermost
  | .nonNull ⟨t, _⟩ => t.innermost

end QueryDocs
