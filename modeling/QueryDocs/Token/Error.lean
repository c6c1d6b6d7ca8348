import QueryDocs.Text.CharLiteral

/-! # Lexical errors

Why a text does not go on with a token, and the offset at which this shows. -/

namespace QueryDocs

open QueryDocs.Text

/-- What is wrong with a number. -/
inductive NumberFault where
  /-- A digit follows a leading zero. -/
  | digitAfterZero (digit : Char)
  /-- A digit is missing where this character, or the end of the text, stands. -/
  | missingDigit (found : Option Char)
  /-- The number runs into a character that cannot follow it. -/
  | runsInto (next : Char)
deriving DecidableEq, Repr

/-- What is wrong with the text at some offset. -/
inductive LexFault where
  /-- No token starts with this character, or it may not stand in a string. -/
  | unexpectedCharacter (c : Char)
  /-- A string has no closing quote on its line. -/
  | unterminatedString
  /-- A block string has no closing quotes. -/
  | unterminatedBlockString
  /-- A backslash is followed by a character that makes no escape with it. -/
  | unknownEscape (c : Char)
  /-- An escape by code point denotes no character; the text is its start. -/
  | unicodeEscape (text : String)
  /-- A number is not written as the grammar of numbers demands. -/
  | malformedNumber (fault : NumberFault)
  /-- There are not three dots where a dot stands. -/
  | loneDot
deriving DecidableEq, Repr

/-- A lexical error at a byte offset. -/
structure LexError where
  /-- What is wrong. -/
  fault : LexFault
  /-- The offset at which it shows. -/
  offset : Nat
deriving DecidableEq, Repr

/-- The wording for a fault in a number. -/
def NumberFault.message : NumberFault → String
  | .digitAfterZero d => "unexpected digit after 0: " ++ String.ofList (CharLiteral.quoted d)
  | .missingDigit (some c) => "expected digit, found " ++ String.ofList (CharLiteral.quoted c)
  | .missingDigit none => "expected digit, found <EOF>"
  | .runsInto c => "unexpected " ++ String.ofList (CharLiteral.quoted c) ++ " after number"

/-- The wording for a lexical fault. -/
def LexFault.message : LexFault → String
  | .unexpectedCharacter c => "unexpected character " ++ String.ofList (CharLiteral.quoted c)
  | .unterminatedString => "unterminated string"
  | .unterminatedBlockString => "unterminated block string"
  | .unknownEscape c =>
    "invalid escape sequence \\" ++ String.ofList (CharLiteral.stripQuotes (CharLiteral.quoted c))
  | .unicodeEscape text => "invalid unicode escape sequence " ++ text
  | .malformedNumber fault => "invalid number: " ++ fault.message
  | .loneDot => "unexpected \".\", did you mean \"...\"?"

/-- The wording for a lexical error. -/
def LexError.message (e : LexError) : String := e.fault.message

end QueryDocs
