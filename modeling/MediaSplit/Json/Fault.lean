import MediaSplit.Number.IntegerLimit

/-!
Why a text is no JSON.
-/

namespace MediaSplit.Json

inductive Problem where
  | expectedValue
  | expectedName
  | expectedColon
  | expectedComma
  | extraData
  | unterminatedString
  | controlCharacter
  | badEscape
  | badUnicodeEscape
  | byteOrderMark
  deriving DecidableEq, Repr

def Problem.text : Problem → String
  | .expectedValue => "Expecting value"
  | .expectedName => "Expecting property name enclosed in double quotes"
  | .expectedColon => "Expecting ':' delimiter"
  | .expectedComma => "Expecting ',' delimiter"
  | .extraData => "Extra data"
  | .unterminatedString => "Unterminated string starting at"
  | .controlCharacter => "Invalid control character at"
  | .badEscape => "Invalid \\escape"
  | .badUnicodeEscape => "Invalid \\uXXXX escape"
  | .byteOrderMark => "Unexpected UTF-8 BOM (decode using utf-8-sig)"

/-- A problem with the characters that were left when it was found, or an integer that is too
long to be read. -/
inductive Fault where
  | malformed (problem : Problem) (left : Nat)
  | oversizedInteger (digits : Nat)
  deriving DecidableEq, Repr

/-- A place in a text as messages give it: line, column and number of characters before. -/
def placeText (text : List Char) (index : Nat) : String :=
  let before := text.take index
  let line := before.count '\n' + 1
  let column := (before.reverse.takeWhile (· != '\n')).length + 1
  "line " ++ toString line ++ " column " ++ toString column ++ " (char " ++ toString index ++ ")"

def Fault.message (text : List Char) : Fault → String
  | .malformed problem left => problem.text ++ ": " ++ placeText text (text.length - left)
  | .oversizedInteger digits => oversizedMessage digits

end MediaSplit.Json
