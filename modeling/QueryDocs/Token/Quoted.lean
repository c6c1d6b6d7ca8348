import QueryDocs.Token.Error

/-! # Quoted strings

The text between two double quotes on one line. A backslash opens an escape: a letter for one of a
few characters, or `u` and four hexadecimal digits for a code point, where two escapes that form a
surrogate pair denote one character together. -/

namespace QueryDocs.Quoted

/-- The character denoted by a backslash and a single given character. -/
def letter? : Char → Option Char
  | '"' => some '"'
  | '\\' => some '\\'
  | '/' => some '/'
  | 'b' => some '\x08'
  | 'f' => some '\x0c'
  | 'n' => some '\n'
  | 'r' => some '\r'
  | 't' => some '\t'
  | _ => none

/-- The value of a hexadecimal digit of either case. -/
def hexDigit? (c : Char) : Option Nat :=
  if c.isDigit then some (c.toNat - '0'.toNat)
  else if 'a' ≤ c ∧ c ≤ 'f' then some (c.toNat - 'a'.toNat + 10)
  else if 'A' ≤ c ∧ c ≤ 'F' then some (c.toNat - 'A'.toNat + 10)
  else none

/-- The value of four hexadecimal digits. -/
def hex4? (a b c d : Char) : Option Nat := do
  let a ← hexDigit? a
  let b ← hexDigit? b
  let c ← hexDigit? c
  let d ← hexDigit? d
  return ((a * 16 + b) * 16 + c) * 16 + d

/-- Whether a code unit opens a surrogate pair. -/
def isHighSurrogate (n : Nat) : Bool := 0xD800 ≤ n && n ≤ 0xDBFF

/-- Whether a code unit closes a surrogate pair. -/
def isLowSurrogate (n : Nat) : Bool := 0xDC00 ≤ n && n ≤ 0xDFFF

/-- The character denoted by a surrogate pair. -/
def pair (high low : Nat) : Char := Char.ofNat (0x10000 + (high - 0xD800) * 0x400 + (low - 0xDC00))

/-- The lexical error for an escape by code point that denotes no character: it shows the escape's
first six characters, the backslash among them. -/
def unicodeError (offset : Nat) (afterBackslash : List Char) : LexError :=
  ⟨.unicodeEscape (String.ofList ('\\' :: afterBackslash.take 5)), offset⟩

/-- Reads the rest of a string whose opening quote is at the offset `opening`. The current offset is
`offset`, and `value` holds the characters denoted so far, the last one first. The answer is the
value of the string, the offset after its closing quote and the text from there on. -/
def body (opening : Nat) (value : List Char) (offset : Nat) :
    List Char → Except LexError (List Char × Nat × List Char)
  | [] => .error ⟨.unterminatedString, opening⟩
  | c :: cs =>
    if c = '"' then .ok (value.reverse, offset + 1, cs)
    else if c = '\n' ∨ c = '\r' then .error ⟨.unterminatedString, opening⟩
    else if c = '\\' then
      match cs with
      | [] => .error ⟨.unterminatedString, opening⟩
      | e :: after =>
        match letter? e with
        | some d => body opening (d :: value) (offset + 2) after
        | none =>
          if e ≠ 'u' then .error ⟨.unknownEscape e, offset⟩
          else
            match after with
            | h₁ :: h₂ :: h₃ :: h₄ :: after' =>
              match hex4? h₁ h₂ h₃ h₄ with
              | none => .error (unicodeError offset (e :: after))
              | some n =>
                if isHighSurrogate n then
                  match after' with
                  | '\\' :: 'u' :: l₁ :: l₂ :: l₃ :: l₄ :: after'' =>
                    match hex4? l₁ l₂ l₃ l₄ with
                    | none => .error (unicodeError offset (e :: after))
                    | some m =>
                      if isLowSurrogate m then
                        body opening (pair n m :: value) (offset + 12) after''
                      else .error (unicodeError offset (e :: after))
                  | _ => .error (unicodeError offset (e :: after))
                else if isLowSurrogate n then .error (unicodeError offset (e :: after))
                else body opening (Char.ofNat n :: value) (offset + 6) after'
            | _ => .error (unicodeError offset (e :: after))
    else if c.toNat < 0x20 ∧ c ≠ '\t' then .error ⟨.unexpectedCharacter c, offset⟩
    else body opening (c :: value) (offset + c.utf8Size) cs

example : body 0 [] 1 "\\u00e9\\\" \\uD83D\\ude00\"x".toList
    = .ok ("é\" 😀".toList, 23, ['x']) := by cbv

end QueryDocs.Quoted
