import MediaSplit.Number.Binary64
import MediaSplit.Text.Blank

/-!
Decimal numbers: a coefficient with its own power of ten, so that 1.5 and 1.50 are one number in
two forms. The text of a number keeps its form: digits with a point as long as the point is near
them, and an exponent otherwise.
-/

namespace MediaSplit

inductive Decimal where
  | finite (negative : Bool) (coefficient : Nat) (exponent : Int)
  | infinite (negative : Bool)
  | nan (negative signaling : Bool) (payload : List Char)
  deriving DecidableEq, Repr

namespace Decimal

def numberOf (digits : List Char) : Nat :=
  digits.foldl (fun n c => 10 * n + (c.toNat - '0'.toNat)) 0

/-- Reads a row of digits that may be empty and that nothing follows. -/
def digits? (text : List Char) : Option (List Char) :=
  if text.all Char.isDigit then some text else none

/-- Reads the exponent that follows the digits of a number, with its letter, or nothing. -/
def exponent? : List Char → Option Int
  | [] => some 0
  | 'e' :: '-' :: digits => if digits.isEmpty then none else (digits? digits).map (-numberOf ·)
  | 'e' :: '+' :: digits => if digits.isEmpty then none else (digits? digits).map (numberOf ·)
  | 'e' :: digits => if digits.isEmpty then none else (digits? digits).map (numberOf ·)
  | _ => none

/-- Reads a number without its sign. Digits after the point count for tenths. -/
def magnitude? (negative : Bool) (text : List Char) : Option Decimal := do
  let whole := text.takeWhile Char.isDigit
  let rest := text.dropWhile Char.isDigit
  let (fraction, rest) := match rest with
    | '.' :: after => (after.takeWhile Char.isDigit, after.dropWhile Char.isDigit)
    | rest => ([], rest)
  if whole.isEmpty && fraction.isEmpty then failure
  let exponent ← exponent? rest
  return .finite negative (numberOf (whole ++ fraction)) (exponent - fraction.length)

def unsigned? (negative : Bool) : List Char → Option Decimal
  | ['i', 'n', 'f'] | ['i', 'n', 'f', 'i', 'n', 'i', 't', 'y'] => some (.infinite negative)
  | 'n' :: 'a' :: 'n' :: payload =>
      (digits? payload).map fun digits => .nan negative false (digits.dropWhile (· == '0'))
  | 's' :: 'n' :: 'a' :: 'n' :: payload =>
      (digits? payload).map fun digits => .nan negative true (digits.dropWhile (· == '0'))
  | text => magnitude? negative text

/-- Reads a decimal number. Blanks around it and low lines in it count for nothing, and letters
may be small or capital. -/
def ofText? (text : List Char) : Option Decimal :=
  match ((Text.trim text).filter (· != '_')).map Char.toLower with
  | '-' :: body => unsigned? true body
  | '+' :: body => unsigned? false body
  | body => unsigned? false body

/-- Digits with the point after the first `place` of them, of which there are enough. -/
def pointed (digits : List Char) (place : Int) : List Char :=
  if place ≤ 0 then '0' :: '.' :: List.replicate (-place).toNat '0' ++ digits
  else
    let fraction := digits.drop place.toNat
    digits.take place.toNat ++ if fraction.isEmpty then [] else '.' :: fraction

/-- The text of a number without its sign. It has no exponent if its own is not positive and
fewer than six zeros come between the point and the first digit. -/
def magnitudeText (coefficient : Nat) (exponent : Int) : List Char :=
  let digits := Nat.toDigits 10 coefficient
  let place := exponent + digits.length
  if exponent ≤ 0 ∧ -6 < place then pointed digits place
  else
    let power := place - 1
    pointed digits 1 ++ 'E' :: (if power < 0 then '-' else '+') :: Nat.toDigits 10 power.natAbs

def text (d : Decimal) : List Char :=
  let sign := fun negative : Bool => if negative then ['-'] else []
  match d with
  | .finite negative coefficient exponent => sign negative ++ magnitudeText coefficient exponent
  | .infinite negative => sign negative ++ "Infinity".toList
  | .nan negative signaling payload =>
      sign negative ++ (if signaling then ['s'] else []) ++ "NaN".toList ++ payload

def isZero : Decimal → Bool
  | .finite _ coefficient _ => coefficient == 0
  | _ => false

end Decimal

end MediaSplit
