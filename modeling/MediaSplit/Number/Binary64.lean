/-!
Double precision numbers as exact multiples of powers of two, and the nearest of them to a
decimal fraction.
-/

namespace MediaSplit

/-- A double precision number. A finite one is `mantissa * 2 ^ exponent` with its sign; the
mantissa has at most 53 bits, and fewer only at the least exponent, -1074. -/
inductive Binary64 where
  | finite (negative : Bool) (mantissa : Nat) (exponent : Int)
  | infinite (negative : Bool)
  | nan
  deriving DecidableEq, Repr

def twoPow (n : Nat) : Nat :=
  Nat.pow 2 n

def tenPow (n : Nat) : Nat :=
  Nat.pow 10 n

namespace Binary64

def zero (negative : Bool) : Binary64 :=
  .finite negative 0 (-1074)

/-- The quotient, rounded to the nearest natural number; a tie goes to the even one. -/
def roundDiv (num den : Nat) : Nat :=
  let quotient := num / den
  let remainder := num % den
  if 2 * remainder < den then quotient
  else if 2 * remainder > den then quotient + 1
  else quotient + quotient % 2

/-- The number `num / (den * 2 ^ exponent)`, rounded to a natural number. -/
def scaledRound (num den : Nat) (exponent : Int) : Nat :=
  roundDiv (num * twoPow (-exponent).toNat) (den * twoPow exponent.toNat)

/-- The double nearest to a positive fraction. Of two that are equally near it is the one with
the even mantissa, and beyond the greatest double it is infinite. -/
def ofFraction (negative : Bool) (num den : Nat) : Binary64 :=
  let wanted : Int := (num.log2 : Int) - den.log2 - 52
  let guess : Int := if wanted < -1074 then -1074 else wanted
  let isTooCoarse := num * twoPow (-guess).toNat < twoPow 52 * (den * twoPow guess.toNat)
  let exponent := if (-1074) < guess ∧ isTooCoarse then guess - 1 else guess
  let mantissa := scaledRound num den exponent
  let (mantissa, exponent) :=
    if mantissa = twoPow 53 then (twoPow 52, exponent + 1) else (mantissa, exponent)
  if 971 < exponent then .infinite negative else .finite negative mantissa exponent

/-- The double nearest to `digits * 10 ^ exponent`. Numbers far outside the range of doubles are
decided by their size alone, as four bits are more than a decimal digit and three are less. -/
def ofDecimal (negative : Bool) (digits : Nat) (exponent : Int) : Binary64 :=
  if digits = 0 then zero negative
  else if 400 < exponent + digits.log2 / 4 then .infinite negative
  else if exponent + digits.log2 / 3 + 1 < -400 then zero negative
  else ofFraction negative (digits * tenPow exponent.toNat) (tenPow (-exponent).toNat)

/-- Zero of either sign. -/
def isZero : Binary64 → Bool
  | .finite _ mantissa _ => mantissa == 0
  | _ => false

def integer? : Binary64 → Option Int
  | .finite negative mantissa exponent =>
      let divisor := twoPow (-exponent).toNat
      if mantissa % divisor = 0 then
        let magnitude : Int := mantissa / divisor * twoPow exponent.toNat
        some (if negative then -magnitude else magnitude)
      else none
  | _ => none

end Binary64

end MediaSplit
