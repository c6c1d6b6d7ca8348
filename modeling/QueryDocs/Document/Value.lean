import QueryDocs.Decimal
import QueryDocs.Document.TypeRef

/-! # Values

The values that arguments and defaults have: variables, literals, lists and objects. Numbers keep
the text they were written with. A value is constant if no variable occurs in it. -/

namespace QueryDocs

open QueryDocs.Decimal (naturalOf)

/-- A use of a variable. -/
structure Variable where
  /-- The name behind the dollar sign. -/
  name : Name
  /-- The bytes it was read from. -/
  span : Span
deriving DecidableEq, Repr

/-- An integer literal. -/
structure IntValue where
  /-- The literal as written. -/
  text : String
  /-- The bytes it was read from. -/
  span : Span
deriving DecidableEq, Repr

/-- A floating-point literal. -/
structure FloatValue where
  /-- The literal as written. -/
  text : String
  /-- The bytes it was read from. -/
  span : Span
deriving DecidableEq, Repr

/-- A string literal. -/
structure StringValue where
  /-- The text it denotes. -/
  text : String
  /-- Whether it was written as a block string. -/
  block : Bool
  /-- The bytes it was read from. -/
  span : Span
deriving DecidableEq, Repr

/-- A truth value. -/
structure BooleanValue where
  /-- The truth value itself. -/
  value : Bool
  /-- The bytes it was read from. -/
  span : Span
deriving DecidableEq, Repr

/-- The literal `null`. -/
structure NullValue where
  /-- The bytes it was read from. -/
  span : Span
deriving DecidableEq, Repr

/-- A member of an enumeration. -/
structure EnumValue where
  /-- The name of the member. -/
  text : String
  /-- The bytes it was read from. -/
  span : Span
deriving DecidableEq, Repr

mutual

/-- A value. -/
inductive Value where
  | variable (v : Variable)
  | int (v : IntValue)
  | float (v : FloatValue)
  | string (v : StringValue)
  | boolean (v : BooleanValue)
  | null (v : NullValue)
  | enum (v : EnumValue)
  | list (v : ListValue)
  | object (v : ObjectValue)

/-- A list of values in brackets. -/
structure ListValue where
  /-- The items in order. -/
  values : List Value
  /-- The bytes it was read from. -/
  span : Span

/-- Named values in braces. -/
structure ObjectValue where
  /-- The fields in order. -/
  fields : List ObjectField
  /-- The bytes it was read from. -/
  span : Span

/-- A named value in an object. -/
structure ObjectField where
  /-- The name of the field. -/
  name : Name
  /-- Its value. -/
  value : Value
  /-- The bytes it was read from. -/
  span : Span

end

/-! ### Equality -/

mutual

/-- Whether two values are the same, spans included. -/
def Value.same : Value → Value → Bool
  | .variable v, .variable w => v == w
  | .int v, .int w => v == w
  | .float v, .float w => v == w
  | .string v, .string w => v == w
  | .boolean v, .boolean w => v == w
  | .null v, .null w => v == w
  | .enum v, .enum w => v == w
  | .list v, .list w => v.same w
  | .object v, .object w => v.same w
  | _, _ => false

/-- Whether two lists are the same. -/
def ListValue.same : ListValue → ListValue → Bool
  | ⟨vs, s⟩, ⟨ws, t⟩ => Value.sameAll vs ws && s == t

/-- Whether two objects are the same. -/
def ObjectValue.same : ObjectValue → ObjectValue → Bool
  | ⟨fs, s⟩, ⟨gs, t⟩ => ObjectField.sameAll fs gs && s == t

/-- Whether two fields are the same. -/
def ObjectField.same : ObjectField → ObjectField → Bool
  | ⟨n, v, s⟩, ⟨m, w, t⟩ => n == m && v.same w && s == t

/-- Whether two sequences of values are the same. -/
def Value.sameAll : List Value → List Value → Bool
  | [], [] => true
  | v :: vs, w :: ws => v.same w && Value.sameAll vs ws
  | _, _ => false

/-- Whether two sequences of fields are the same. -/
def ObjectField.sameAll : List ObjectField → List ObjectField → Bool
  | [], [] => true
  | f :: fs, g :: gs => f.same g && ObjectField.sameAll fs gs
  | _, _ => false

end

mutual

theorem Value.same_iff : ∀ v w : Value, v.same w = true ↔ v = w
  | .variable v, w => by cases w <;> simp [Value.same]
  | .int v, w => by cases w <;> simp [Value.same]
  | .float v, w => by cases w <;> simp [Value.same]
  | .string v, w => by cases w <;> simp [Value.same]
  | .boolean v, w => by cases w <;> simp [Value.same]
  | .null v, w => by cases w <;> simp [Value.same]
  | .enum v, w => by cases w <;> simp [Value.same]
  | .list v, w => by
    cases w with
    | list w => simp [Value.same, ListValue.same_iff v w]
    | _ => simp [Value.same]
  | .object v, w => by
    cases w with
    | object w => simp [Value.same, ObjectValue.same_iff v w]
    | _ => simp [Value.same]

theorem ListValue.same_iff : ∀ v w : ListValue, v.same w = true ↔ v = w
  | ⟨vs, s⟩, ⟨ws, t⟩ => by simp [ListValue.same, Value.sameAll_iff vs ws]

theorem ObjectValue.same_iff : ∀ v w : ObjectValue, v.same w = true ↔ v = w
  | ⟨fs, s⟩, ⟨gs, t⟩ => by simp [ObjectValue.same, ObjectField.sameAll_iff fs gs]

theorem ObjectField.same_iff : ∀ f g : ObjectField, f.same g = true ↔ f = g
  | ⟨n, v, s⟩, ⟨m, w, t⟩ => by simp [ObjectField.same, Value.same_iff v w, and_assoc]

theorem Value.sameAll_iff : ∀ vs ws : List Value, Value.sameAll vs ws = true ↔ vs = ws
  | [], [] => by simp [Value.sameAll]
  | [], _ :: _ => by simp [Value.sameAll]
  | _ :: _, [] => by simp [Value.sameAll]
  | v :: vs, w :: ws => by simp [Value.sameAll, Value.same_iff v w, Value.sameAll_iff vs ws]

theorem ObjectField.sameAll_iff :
    ∀ fs gs : List ObjectField, ObjectField.sameAll fs gs = true ↔ fs = gs
  | [], [] => by simp [ObjectField.sameAll]
  | [], _ :: _ => by simp [ObjectField.sameAll]
  | _ :: _, [] => by simp [ObjectField.sameAll]
  | f :: fs, g :: gs => by
    simp [ObjectField.sameAll, ObjectField.same_iff f g, ObjectField.sameAll_iff fs gs]

end

instance : DecidableEq Value := fun v w => decidable_of_iff _ (Value.same_iff v w)

instance : DecidableEq ListValue := fun v w => decidable_of_iff _ (ListValue.same_iff v w)

instance : DecidableEq ObjectValue := fun v w => decidable_of_iff _ (ObjectValue.same_iff v w)

instance : DecidableEq ObjectField := fun f g => decidable_of_iff _ (ObjectField.same_iff f g)

/-! ### Observations -/

/-- The bytes a value was read from. -/
def Value.span : Value → Span
  | .variable v => v.span
  | .int v => v.span
  | .float v => v.span
  | .string v => v.span
  | .boolean v => v.span
  | .null v => v.span
  | .enum v => v.span
  | .list v => v.span
  | .object v => v.span

mutual

/-- Whether no variable occurs in a value. -/
def Value.isConst : Value → Bool
  | .variable _ => false
  | .list ⟨vs, _⟩ => Value.allConst vs
  | .object ⟨fs, _⟩ => ObjectField.allConst fs
  | _ => true

/-- Whether no variable occurs in any of the values. -/
def Value.allConst : List Value → Bool
  | [] => true
  | v :: vs => v.isConst && Value.allConst vs

/-- Whether no variable occurs in any of the fields. -/
def ObjectField.allConst : List ObjectField → Bool
  | [] => true
  | ⟨_, v, _⟩ :: fs => v.isConst && ObjectField.allConst fs

end

theorem Value.allConst_iff {vs : List Value} :
    Value.allConst vs = true ↔ ∀ v ∈ vs, v.isConst = true := by
  induction vs with
  | nil => simp [Value.allConst]
  | cons v vs ih => simp [Value.allConst, ih]

theorem ObjectField.allConst_iff {fs : List ObjectField} :
    ObjectField.allConst fs = true ↔ ∀ f ∈ fs, f.value.isConst = true := by
  induction fs with
  | nil => simp [ObjectField.allConst]
  | cons f fs ih => cases f; simp [ObjectField.allConst, ih]

mutual

/-- A value and all values inside it, in the order in which they are written. -/
def Value.parts : Value → List Value
  | .list ⟨vs, s⟩ => .list ⟨vs, s⟩ :: Value.allParts vs
  | .object ⟨fs, s⟩ => .object ⟨fs, s⟩ :: ObjectField.allParts fs
  | v => [v]

/-- The parts of each value in turn. -/
def Value.allParts : List Value → List Value
  | [] => []
  | v :: vs => v.parts ++ Value.allParts vs

/-- The parts of the value of each field in turn. -/
def ObjectField.allParts : List ObjectField → List Value
  | [] => []
  | ⟨_, v, _⟩ :: fs => v.parts ++ ObjectField.allParts fs

end

/-! ### Numbers -/

/-- The integer that a literal denotes, if it fits 64 bits with a sign. -/
def IntValue.toInt64? (v : IntValue) : Option Int :=
  let (negative, ds) := match v.text.toList with
    | '-' :: ds => (true, ds)
    | ds => (false, ds)
  if ds.isEmpty || !ds.all Char.isDigit then none
  else
    let n := naturalOf ds
    if negative then if n ≤ 0x8000000000000000 then some (-(n : Int)) else none
    else if n < 0x8000000000000000 then some n else none

/-- The floating-point number nearest to what a literal denotes. -/
def FloatValue.toFloat (v : FloatValue) : Float :=
  let (negative, cs) := match v.text.toList with
    | '-' :: cs => (true, cs)
    | cs => (false, cs)
  let whole := cs.takeWhile Char.isDigit
  let cs := cs.dropWhile Char.isDigit
  let (fraction, cs) := match cs with
    | '.' :: cs => (cs.takeWhile Char.isDigit, cs.dropWhile Char.isDigit)
    | cs => ([], cs)
  let power : Int := match cs.drop 1 with
    | '-' :: ds => -(naturalOf ds : Int)
    | '+' :: ds => naturalOf ds
    | ds => naturalOf ds
  let x := Decimal.toFloat ⟨naturalOf (whole ++ fraction), power - fraction.length⟩
  if negative then -x else x

end QueryDocs
