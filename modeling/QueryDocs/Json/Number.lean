import QueryDocs.Decimal
import QueryDocs.Json.Basic

/-! # JSON numbers

How a number's text becomes a value, and a floating-point number a text.

The significand of a number is made of its leading digits, as many as fit 64 bits. Digits of the
whole part beyond those only raise the power of ten, and digits of the fraction beyond those are
over. A floating-point value is the significand multiplied with, or divided by, that power of
ten. A value that is too large is refused.

A floating-point number is written with its shortest digits: positionally when the power of ten of
its first digit lies between -5 and 15, otherwise with a signed exponent. -/

namespace QueryDocs.Json.Number

open QueryDocs.Decimal

/-- The greatest significand. -/
def maxSignificand : Nat := 0xFFFFFFFFFFFFFFFF

/-- Appends digits to a significand as long as it fits; the answer is the new significand and the
number of digits left over. -/
def extend (significand : Nat) : List Char → Nat × Nat
  | [] => (significand, 0)
  | d :: ds =>
    let next := significand * 10 + digitValue d
    if next ≤ maxSignificand then extend next ds else (significand, ds.length + 1)

/-- The power of ten as a floating-point number. -/
def powerOfTen (n : Nat) : Float := Float.ofScientific 1 false n

/-- The magnitude of a number from its significand and power of ten, or `none` if it is too large.
A power below `-308` is applied in two divisions. -/
def scaled? (significand : Nat) (power : Int) : Option Float :=
  let x := Float.ofScientific significand false 0
  if significand = 0 then some x
  else if power > 308 then none
  else if power ≥ 0 then
    let y := x * powerOfTen power.toNat
    if y.isInf then none else some y
  else if power ≥ -308 then some (x / powerOfTen power.natAbs)
  else if power ≥ -616 then some (x / powerOfTen 308 / powerOfTen (power.natAbs - 308))
  else some 0.0

/-- The parts of a number's text. -/
structure Parts where
  /-- Whether there is a minus sign. -/
  negative : Bool
  /-- The digits before the dot. -/
  whole : List Char
  /-- The digits after the dot, if there is one. -/
  fraction : Option (List Char)
  /-- The exponent's sign and digits, if there is one. -/
  exponent : Option (Bool × List Char)

/-- Splits off one or more digits. -/
def digits? (cs : List Char) : Option (List Char × List Char) :=
  match cs.takeWhile Char.isDigit with
  | [] => none
  | ds => some (ds, cs.dropWhile Char.isDigit)

/-- Splits a number off a text, by the grammar of JSON numbers. -/
def parts? (cs : List Char) : Option (Parts × List Char) := do
  let (negative, cs) := match cs with
    | '-' :: rest => (true, rest)
    | _ => (false, cs)
  let (whole, cs) ← digits? cs
  if whole.length > 1 ∧ whole.head? = some '0' then none
  let (fraction, cs) ← match cs with
    | '.' :: rest => do
      let (ds, rest) ← digits? rest
      pure (some ds, rest)
    | _ => pure (none, cs)
  let (exponent, cs) ← match cs with
    | c :: rest =>
      if c = 'e' ∨ c = 'E' then do
        let (down, rest) := match rest with
          | '+' :: rest => (false, rest)
          | '-' :: rest => (true, rest)
          | _ => (false, rest)
        let (ds, rest) ← digits? rest
        pure (some (down, ds), rest)
      else pure (none, cs)
    | [] => pure (none, cs)
  return (⟨negative, whole, fraction, exponent⟩, cs)

/-- The signed value of a magnitude. -/
def signed (negative : Bool) (x : Float) : Float := if negative then -x else x

/-- The value of a number, or `none` if it is too large. -/
def Parts.value? (p : Parts) : Option Json :=
  let (significand, dropped) := extend 0 p.whole
  match p.fraction, p.exponent with
  | none, none =>
    if dropped = 0 then
      if !p.negative then some (.int significand)
      else if significand = 0 ∨ significand > 0x8000000000000000 then
        some (.float (-(Float.ofScientific significand false 0)))
      else some (.int (-(significand : Int)))
    else (scaled? significand dropped).map fun x => .float (signed p.negative x)
  | fraction, exponent =>
    let ds := fraction.getD []
    let (significand, left) := extend significand ds
    let start : Int := dropped - (ds.length - left : Nat)
    let power := match exponent with
      | none => start
      | some (down, es) => if down then start - naturalOf es else start + naturalOf es
    (scaled? significand power).map fun x => .float (signed p.negative x)

/-- The digits of a decimal with the decimal point or exponent that its magnitude asks for. -/
def layout (d : Decimal) : String :=
  let ds := Nat.toDigits 10 d.digits
  let lead : Int := d.exponent + ds.length - 1
  if -5 ≤ lead ∧ lead ≤ 15 then
    if d.exponent ≥ 0 then String.ofList (ds ++ List.replicate d.exponent.toNat '0') ++ ".0"
    else if lead ≥ 0 then
      String.ofList (ds.take (lead.toNat + 1)) ++ "." ++ String.ofList (ds.drop (lead.toNat + 1))
    else "0." ++ String.ofList (List.replicate (-lead - 1).toNat '0' ++ ds)
  else
    let point := if ds.length = 1 then "" else "."
    let sign := if lead < 0 then "-" else "+"
    String.ofList (ds.take 1) ++ point ++ String.ofList (ds.drop 1) ++ "e" ++ sign ++
      toString lead.natAbs

/-- The text of a floating-point number. JSON has no text for infinities and for what is no number;
these are written as null. -/
def render (x : Float) : String :=
  if x.isNaN || x.isInf then "null"
  else
    let bits := x.toBits
    let sign := if bits >>> 63 = 1 then "-" else ""
    let binary := Binary.ofBits bits
    if binary.mantissa = 0 then sign ++ "0.0"
    else sign ++ layout (binary.shortest.stripZeros 400)

example : layout ⟨12, -1⟩ = "1.2" ∧ layout ⟨1, 16⟩ = "1e+16" ∧ layout ⟨15, -8⟩ = "1.5e-7" := by
  decide +kernel

end QueryDocs.Json.Number
