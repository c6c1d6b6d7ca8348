import QueryDocs.Document.Value

/-! # The variables in a value

A value is constant exactly if it holds no variables (`Value.isConst_iff`). -/

namespace QueryDocs

/-- The variable that a value is, if it is one. -/
def Value.variable? : Value → Option Variable
  | .variable x => some x
  | _ => none

/-- The variables in a value, in the order in which they are written. -/
def Value.variables (v : Value) : List Variable := v.parts.filterMap Value.variable?

/-- The variables in the value of a field. -/
def ObjectField.variables (f : ObjectField) : List Variable := f.value.variables

section Variables
variable (vs : List Value) (fs : List ObjectField) (s : Span)

theorem Value.filterMap_allParts :
    (Value.allParts vs).filterMap Value.variable? = vs.flatMap Value.variables := by
  induction vs with
  | nil => rfl
  | cons v vs ih =>
    rw [Value.allParts, List.filterMap_append, ih, List.flatMap_cons]
    rfl

theorem ObjectField.filterMap_allParts :
    (ObjectField.allParts fs).filterMap Value.variable? = fs.flatMap ObjectField.variables := by
  induction fs with
  | nil => rfl
  | cons f fs ih =>
    cases f
    rw [ObjectField.allParts, List.filterMap_append, ih, List.flatMap_cons]
    rfl

@[simp] theorem Value.variables_list :
    (Value.list ⟨vs, s⟩).variables = vs.flatMap Value.variables := by
  rw [Value.variables, Value.parts, List.filterMap_cons, Value.filterMap_allParts]
  rfl

@[simp] theorem Value.variables_object :
    (Value.object ⟨fs, s⟩).variables = fs.flatMap ObjectField.variables := by
  rw [Value.variables, Value.parts, List.filterMap_cons, ObjectField.filterMap_allParts]
  rfl

end Variables

mutual

/-- **A value is constant exactly if it holds no variables.** -/
theorem Value.isConst_iff : ∀ v : Value, v.isConst = true ↔ v.variables = []
  | .variable x => by simp [Value.isConst, Value.variables, Value.parts, Value.variable?]
  | .int _ | .float _ | .string _ | .boolean _ | .null _ | .enum _ => ⟨fun _ => rfl, fun _ => rfl⟩
  | .list ⟨vs, s⟩ => by rw [Value.isConst, Value.variables_list, Value.allConst_iff_variables vs]
  | .object ⟨fs, s⟩ => by
    rw [Value.isConst, Value.variables_object, ObjectField.allConst_iff_variables fs]

theorem Value.allConst_iff_variables :
    ∀ vs : List Value, Value.allConst vs = true ↔ vs.flatMap Value.variables = []
  | [] => by simp [Value.allConst]
  | v :: vs => by
    rw [Value.allConst, Bool.and_eq_true, Value.isConst_iff v, Value.allConst_iff_variables vs,
      List.flatMap_cons, List.append_eq_nil_iff]

theorem ObjectField.allConst_iff_variables :
    ∀ fs : List ObjectField, ObjectField.allConst fs = true ↔ fs.flatMap ObjectField.variables = []
  | [] => by simp [ObjectField.allConst]
  | ⟨n, v, s⟩ :: fs => by
    rw [ObjectField.allConst, Bool.and_eq_true, Value.isConst_iff v,
      ObjectField.allConst_iff_variables fs, List.flatMap_cons, List.append_eq_nil_iff]
    rfl

end

end QueryDocs
