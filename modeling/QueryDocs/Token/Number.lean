import QueryDocs.Token
import QueryDocs.Token.Error

/-! # Numbers

A number is an optional minus sign, a whole part without leading zeros, an optional fraction and an
optional exponent. It is an integer when it has neither of the two. What follows must not look like
a part of it: another digit, a dot or the start of a name.

The parts are read one after the other by steps on a `Reading`, each of which takes from the text
as much as it can. A step that fails hands back the reading it failed at, so that the error can be
placed. -/

namespace QueryDocs.Number

/-- A number in the course of being read: the part of it before the current place, and the text from
there on. -/
structure Reading where
  /-- The part of the number read so far. -/
  taken : List Char
  /-- The text after it. -/
  rest : List Char
deriving DecidableEq, Repr

/-- The outcome of a step: the reading after it, or where it failed and why. -/
abbrev Step := Except (Reading × NumberFault) Reading

/-- Takes a character if it satisfies a condition. -/
def optional (p : Char → Bool) (r : Reading) : Reading :=
  match r.rest with
  | c :: rest => if p c then ⟨r.taken ++ [c], rest⟩ else r
  | [] => r

/-- Takes one or more digits. -/
def digits (r : Reading) : Step :=
  match r.rest.takeWhile Char.isDigit with
  | [] => .error (r, .missingDigit r.rest.head?)
  | ds => .ok ⟨r.taken ++ ds, r.rest.dropWhile Char.isDigit⟩

/-- Takes a zero that no digit follows, or digits of which the first is not a zero. -/
def whole (r : Reading) : Step :=
  match r.rest with
  | '0' :: rest =>
    let r' : Reading := ⟨r.taken ++ ['0'], rest⟩
    match rest with
    | c :: _ => if c.isDigit then .error (r', .digitAfterZero c) else .ok r'
    | [] => .ok r'
  | _ => digits r

/-- Takes a dot and the digits after it, if there is a dot. -/
def fraction (r : Reading) : Step :=
  match r.rest with
  | '.' :: rest => digits ⟨r.taken ++ ['.'], rest⟩
  | _ => .ok r

/-- Whether a character opens an exponent. -/
def isExponentMark (c : Char) : Bool := c == 'e' || c == 'E'

/-- Takes an exponent mark, an optional sign and digits, if there is an exponent mark. -/
def exponent (r : Reading) : Step :=
  match r.rest with
  | c :: rest =>
    if isExponentMark c then
      digits (optional (fun s => s == '+' || s == '-') ⟨r.taken ++ [c], rest⟩)
    else .ok r
  | [] => .ok r

/-- Checks that the number does not run into a dot or a name. -/
def close (r : Reading) : Step :=
  match r.rest with
  | c :: _ => if c == '.' || NameText.isStart c then .error (r, .runsInto c) else .ok r
  | [] => .ok r

/-- Reads the number at the start of a text. -/
def read (cs : List Char) : Step :=
  whole (optional (· == '-') ⟨[], cs⟩) >>= fraction >>= exponent >>= close

/-- Whether a number has a fraction or an exponent. -/
def isFloat (cs : List Char) : Bool := cs.any fun c => c == '.' || isExponentMark c

example : read "-1.5e+3, 7".toList = .ok ⟨"-1.5e+3".toList, ", 7".toList⟩ := by rfl

example : read "1.e".toList = .error (⟨"1.".toList, ['e']⟩, .missingDigit (some 'e')) := by rfl

end QueryDocs.Number
