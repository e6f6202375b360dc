/-!
The limit on the length of integers in texts.
-/

namespace MediaSplit

/-- The greatest number of digits that an integer in a text may have. -/
def maxIntegerDigits : Nat := 4300

/-- The length of a row of digits that is over the limit. -/
def oversized? (digits : List Char) : Option Nat :=
  if maxIntegerDigits < digits.length then some digits.length else none

def oversizedMessage (digits : Nat) : String :=
  "Exceeds the limit (" ++ toString maxIntegerDigits ++
    " digits) for integer string conversion: value has " ++ toString digits ++
    " digits; use sys.set_int_max_str_digits() to increase the limit"

end MediaSplit
