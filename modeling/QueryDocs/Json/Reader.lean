import QueryDocs.Json.Number
import QueryDocs.Token.Quoted

/-! # Reading JSON

A value is read strictly: numbers must not be too large, escaped surrogates must form pairs, and
arrays and objects may be nested only so deep. A part of a text that is read and then left out of
account is read loosely: its grammar must be right, its numbers and surrogates do not matter. -/

namespace QueryDocs.Json

open QueryDocs.Quoted

/-- How a value is read. -/
inductive Mode where
  /-- The value counts. -/
  | strict
  /-- Only the grammar of the value counts. -/
  | loose
deriving DecidableEq, Repr

/-- Passes over blanks. -/
def skipBlanks (cs : List Char) : List Char :=
  cs.dropWhile fun c => c == ' ' || c == '\n' || c == '\t' || c == '\r'

/-- Reads the rest of a string behind its opening quote; `text` holds the characters so far, the
last one first. Read loosely, an escaped surrogate is taken as a replacement character. -/
def stringBody (mode : Mode) (text : List Char) : List Char → Option (String × List Char)
  | [] => none
  | c :: cs =>
    if c = '"' then some (String.ofList text.reverse, cs)
    else if c = '\\' then
      match cs with
      | [] => none
      | e :: after =>
        match letter? e with
        | some d => stringBody mode (d :: text) after
        | none =>
          match e, after with
          | 'u', h₁ :: h₂ :: h₃ :: h₄ :: after' =>
            match hex4? h₁ h₂ h₃ h₄ with
            | none => none
            | some n =>
              if isHighSurrogate n || isLowSurrogate n then
                match mode with
                | .loose => stringBody mode ('\ufffd' :: text) after'
                | .strict =>
                  match after' with
                  | '\\' :: 'u' :: l₁ :: l₂ :: l₃ :: l₄ :: after'' =>
                    match hex4? l₁ l₂ l₃ l₄ with
                    | none => none
                    | some m =>
                      if isHighSurrogate n && isLowSurrogate m then
                        stringBody mode (pair n m :: text) after''
                      else none
                  | _ => none
              else stringBody mode (Char.ofNat n :: text) after'
          | _, _ => none
    else if c.toNat < 0x20 then none
    else stringBody mode (c :: text) cs

/-- Reads the items of an array behind its opening bracket, the first of them if there is one being
at hand. More than `limit` items are refused. -/
def items (item : List Char → Option (Json × List Char)) :
    Nat → List Char → Option (List Json × List Char)
  | 0, _ => none
  | limit + 1, cs => do
    let (v, cs) ← item cs
    match skipBlanks cs with
    | ',' :: cs => do
      let (vs, cs) ← items item limit cs
      some (v :: vs, cs)
    | ']' :: cs => some ([v], cs)
    | _ => none

/-- Reads a member's name and the colon behind it. -/
def memberName? (mode : Mode) (cs : List Char) : Option (String × List Char) :=
  match skipBlanks cs with
  | '"' :: cs => do
    let (name, cs) ← stringBody mode [] cs
    match skipBlanks cs with
    | ':' :: cs => some (name, cs)
    | _ => none
  | _ => none

/-- Reads the members of an object behind its opening brace, as `items` reads those of an array. The
reader of a member's value is chosen by the member's name. -/
def members {α : Type} (mode : Mode) (member : String → List Char → Option (α × List Char)) :
    Nat → List Char → Option (List (String × α) × List Char)
  | 0, _ => none
  | limit + 1, cs => do
    let (name, cs) ← memberName? mode cs
    let (v, cs) ← member name cs
    match skipBlanks cs with
    | ',' :: cs => do
      let (vs, cs) ← members mode member limit cs
      some ((name, v) :: vs, cs)
    | '\x7d' :: cs => some ([(name, v)], cs)
    | _ => none

/-- Reads a number. -/
def number (mode : Mode) (cs : List Char) : Option (Json × List Char) := do
  let (parts, rest) ← Number.parts? cs
  match mode, parts.value? with
  | _, some v => some (v, rest)
  | .loose, none => some (.null, rest)
  | .strict, none => none

/-- Reads a value that nests arrays and objects at most `depth` deep. -/
def value (mode : Mode) : Nat → List Char → Option (Json × List Char)
  | depth, cs =>
    match skipBlanks cs with
    | 'n' :: 'u' :: 'l' :: 'l' :: rest => some (.null, rest)
    | 't' :: 'r' :: 'u' :: 'e' :: rest => some (.bool true, rest)
    | 'f' :: 'a' :: 'l' :: 's' :: 'e' :: rest => some (.bool false, rest)
    | '"' :: rest => (stringBody mode [] rest).map fun (s, rest) => (.string s, rest)
    | '[' :: rest =>
      match depth with
      | 0 => none
      | depth + 1 =>
        match skipBlanks rest with
        | ']' :: rest => some (.array [], rest)
        | rest => (items (value mode depth) rest.length rest).map fun (vs, r) => (.array vs, r)
    | '\x7b' :: rest =>
      match depth with
      | 0 => none
      | depth + 1 =>
        match skipBlanks rest with
        | '\x7d' :: rest => some (.object [], rest)
        | rest =>
          (members mode (fun _ => value mode depth) rest.length rest).map fun (ms, r) =>
            (.ofMembers ms, r)
    | rest => number mode rest

/-- How deep arrays and objects may be nested. -/
def maxDepth : Nat := 127

/-- The value that a whole text denotes. -/
def parse? (text : String) : Option Json := do
  let (v, rest) ← value .strict maxDepth text.toList
  if (skipBlanks rest).isEmpty then some v else none

end QueryDocs.Json
