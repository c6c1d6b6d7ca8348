/-! # Decimals

A finite binary floating-point number `mantissa * 2 ^ exponent` stands for all reals that are nearer
to it than to its neighbours. `Binary.shortest` selects the decimal with the fewest digits among
those reals, and among these the nearest to the number itself; of two equally near ones it takes the
one with the even last digit. All comparisons are exact, on natural numbers. -/

namespace QueryDocs

/-- The decimal `digits * 10 ^ exponent`. -/
structure Decimal where
  /-- All digits, as one number. -/
  digits : Nat
  /-- The power of ten. -/
  exponent : Int
deriving DecidableEq, Repr

namespace Decimal

/-! ### Digits -/

/-- The value of a decimal digit. -/
def digitValue (c : Char) : Nat := c.toNat - '0'.toNat

/-- The natural number that decimal digits denote, zero if there are none. -/
def naturalOf (ds : List Char) : Nat := ds.foldl (fun n d => n * 10 + digitValue d) 0

/-! ### Shortest decimals -/

/-- A positive finite number `mantissa * 2 ^ exponent` in 64 bits. -/
structure Binary where
  /-- The digits in base two, as one number. -/
  mantissa : Nat
  /-- The power of two. -/
  exponent : Int
  /-- Whether the neighbour below is half as far away as the one above. -/
  narrowBelow : Bool
deriving DecidableEq, Repr

/-- The magnitude of a finite floating-point number, read off its bits. -/
def Binary.ofBits (bits : UInt64) : Binary :=
  let power := ((bits >>> 52) &&& 0x7FF).toNat
  let fraction := (bits &&& 0xFFFFFFFFFFFFF).toNat
  if power = 0 then ⟨fraction, -1074, false⟩
  else ⟨0x10000000000000 + fraction, (power : Int) - 1075, fraction = 0 && power > 1⟩

/-- The power of ten of an exponent that is not negative, and one for negative exponents. -/
def tenTo (i : Int) : Nat := Nat.pow 10 i.toNat

/-- The power of two of an exponent that is not negative, and one for negative exponents. -/
def twoTo (j : Int) : Nat := 1 <<< j.toNat

/-- Compares `a * 10 ^ i` with `b * 2 ^ j`. -/
def compareScaled (a : Nat) (i : Int) (b : Nat) (j : Int) : Ordering :=
  compare (a * tenTo i * twoTo (-j)) (b * twoTo j * tenTo (-i))

namespace Binary

/-- Whether a decimal is nearest to this number; the two ends of the interval belong to it when the
mantissa is even. -/
def covers (x : Binary) (d : Decimal) : Bool :=
  let low := if x.narrowBelow then 4 * x.mantissa - 1 else 4 * x.mantissa - 2
  let high := 4 * x.mantissa + 2
  let closed := x.mantissa % 2 == 0
  let below := compareScaled d.digits d.exponent low (x.exponent - 2)
  let above := compareScaled d.digits d.exponent high (x.exponent - 2)
  (below == .gt || closed && below == .eq) && (above == .lt || closed && above == .eq)

/-- The number in units of `10 ^ unit`, rounded down. -/
def floorAt (x : Binary) (unit : Int) : Nat :=
  x.mantissa * twoTo x.exponent * tenTo (-unit) / (twoTo (-x.exponent) * tenTo unit)

/-- The least power of ten above the number. No positive number is below `10 ^ (-340)`. -/
def scale (x : Binary) : Int := ((Nat.toDigits 10 (x.floorAt (-340))).length : Int) - 340

/-- The nearest multiple of `10 ^ unit` that the number covers, if it covers one. -/
def onGrid? (x : Binary) (unit : Int) : Option Decimal :=
  let down := x.floorAt unit
  let lower : Decimal := ⟨down, unit⟩
  let upper : Decimal := ⟨down + 1, unit⟩
  match x.covers lower, x.covers upper with
  | false, false => none
  | true, false => some lower
  | false, true => some upper
  | true, true =>
    match compareScaled (2 * down + 1) unit (2 * x.mantissa) x.exponent with
    | .gt => some lower
    | .lt => some upper
    | .eq => some (if down % 2 = 0 then lower else upper)

/-- The shortest decimal that the number covers. Seventeen digits always suffice. -/
def shortest (x : Binary) : Decimal :=
  let k := x.scale
  match (List.range 17).findSome? fun n => x.onGrid? (k - (n + 1 : Nat)) with
  | some d => d
  | none => ⟨x.floorAt (k - 17), k - 17⟩

end Binary

/-- Moves the zeros at the end of the digits into the exponent, at most `limit` of them. -/
def stripZeros (limit : Nat) (d : Decimal) : Decimal :=
  match limit with
  | 0 => d
  | limit + 1 =>
    if d.digits ≠ 0 ∧ d.digits % 10 = 0 then
      stripZeros limit ⟨d.digits / 10, d.exponent + 1⟩
    else d

/-- The floating-point number nearest to a decimal. Decimals far outside the range are settled by
their magnitude alone. -/
def toFloat (d : Decimal) : Float :=
  let top := ((Nat.toDigits 10 d.digits).length : Int) + d.exponent
  if d.digits = 0 ∨ top < -330 then 0.0
  else if top > 310 then 1.0 / 0.0
  else Float.ofScientific d.digits (d.exponent < 0) d.exponent.natAbs

end Decimal

end QueryDocs
