import QueryDocs.Document

/-! # Fragments by name

A `FragmentTable` holds the fragments of a document, of which no two have the same name and none has
the empty name. `Document.fragmentTable` collects it and reports the first fragment that cannot be
added. -/

namespace QueryDocs

/-- Why a fragment cannot be told by its name. -/
inductive FragmentError where
  /-- The name is empty. -/
  | unnamed (span : Span)
  /-- An earlier fragment has the same name. -/
  | duplicate (name : String) (first second : Span)
deriving DecidableEq, Repr

/-- The text of an error. -/
def FragmentError.message : FragmentError → String
  | .unnamed _ => "fragment name cannot be empty"
  | .duplicate name _ _ => "fragment \"" ++ name ++ "\" is defined more than once"

/-- Fragments with distinct names. -/
structure FragmentTable where
  /-- The fragments in order. -/
  entries : List FragmentDefinition
  /-- None of the names is empty. -/
  named : ∀ f ∈ entries, f.name.text ≠ ""
  /-- No two fragments have the same name. -/
  distinct : (entries.map (·.name.text)).Nodup

namespace FragmentTable

/-- The table without fragments. -/
def empty : FragmentTable := ⟨[], by simp, by simp⟩

/-- The number of fragments. -/
def size (t : FragmentTable) : Nat := t.entries.length

/-- The fragment of a name. -/
def get? (t : FragmentTable) (name : String) : Option FragmentDefinition :=
  t.entries.find? (·.name.text == name)

/-- Whether there is a fragment of a name. -/
def contains (t : FragmentTable) (name : String) : Bool := (t.get? name).isSome

theorem mem_of_get? {t : FragmentTable} {name : String} {f : FragmentDefinition}
    (h : t.get? name = some f) : f ∈ t.entries ∧ f.name.text = name :=
  ⟨List.mem_of_find?_eq_some h, by simpa using List.find?_some h⟩

theorem get?_eq_none_iff {t : FragmentTable} {name : String} :
    t.get? name = none ↔ ∀ f ∈ t.entries, f.name.text ≠ name := by
  simp [get?, List.find?_eq_none]

/-- The table with one more fragment behind the others. -/
def add (t : FragmentTable) (f : FragmentDefinition) : Except FragmentError FragmentTable :=
  if unnamed : f.name.text = "" then .error (.unnamed f.span)
  else
    match free : t.get? f.name.text with
    | some first => .error (.duplicate f.name.text first.span f.span)
    | none =>
      .ok {
        entries := t.entries ++ [f]
        named := by
          intro g hg
          rcases List.mem_append.1 hg with hg | hg
          · exact t.named g hg
          · rwa [List.mem_singleton.1 hg]
        distinct := by
          rw [List.map_append, List.nodup_append]
          refine ⟨t.distinct, by simp, ?_⟩
          rintro _ ha _ hb rfl
          obtain ⟨g, hg, hgf⟩ := List.mem_map.1 ha
          rw [List.map_singleton, List.mem_singleton] at hb
          exact get?_eq_none_iff.1 free g hg (hgf.trans hb) }

end FragmentTable

/-- The fragments of a document by name. -/
def Document.fragmentTable (d : Document) : Except FragmentError FragmentTable :=
  d.fragments.foldlM FragmentTable.add FragmentTable.empty

end QueryDocs
