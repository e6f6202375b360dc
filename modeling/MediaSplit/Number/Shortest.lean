import MediaSplit.Number.Binary64

/-!
The shortest decimal text of a double: the fewest significant digits that are read back as the
same number, and of those the nearest to it, the even one of two that are as near.
-/

namespace MediaSplit.Binary64

/-- Whether `a * 10 ^ s` is less than `b * 2 ^ t`. -/
def decimalLt (a : Nat) (s : Int) (b : Nat) (t : Int) : Bool :=
  a * tenPow s.toNat * twoPow (-t).toNat < b * twoPow t.toNat * tenPow (-s).toNat

/-- Whether `a * 10 ^ s` is equal to `b * 2 ^ t`. -/
def decimalEq (a : Nat) (s : Int) (b : Nat) (t : Int) : Bool :=
  a * tenPow s.toNat * twoPow (-t).toNat == b * twoPow t.toNat * tenPow (-s).toNat

/-- The least decimal exponent from `p` on whose power of ten exceeds the number, tried `steps`
times. -/
def pointFrom (mantissa : Nat) (exponent : Int) (p : Int) : Nat → Int
  | 0 => p
  | steps + 1 =>
      if decimalLt 1 p mantissa exponent || decimalEq 1 p mantissa exponent then
        pointFrom mantissa exponent (p + 1) steps
      else p

/-- The number of digits before the point; it is negative for numbers with zeros after the point.
The binary length gives a first guess that is less by at most two. -/
def decimalPoint (mantissa : Nat) (exponent : Int) : Int :=
  let bits : Int := mantissa.log2 + exponent
  pointFrom mantissa exponent (bits * 30103 / 100000 - 1) 4

/-- Whether `a * 10 ^ s` is read back as the number. The numbers that are read as it lie within
half a step on either side; the step below a power of two is half as wide. The ends belong to it
if its mantissa is even. -/
def readsBack (mantissa : Nat) (exponent : Int) (a : Nat) (s : Int) : Bool :=
  let below := if mantissa = twoPow 52 ∧ (-1074) < exponent then 1 else 2
  let low := 4 * mantissa - below
  let high := 4 * mantissa + 2
  let t := exponent - 2
  if mantissa % 2 = 0 then !decimalLt a s low t && (decimalLt a s high t || decimalEq a s high t)
  else !decimalLt a s low t && !decimalEq a s low t && decimalLt a s high t

/-- The largest natural number `a` with `a * 10 ^ s` at most the number. -/
def gridFloor (mantissa : Nat) (exponent : Int) (s : Int) : Nat :=
  mantissa * twoPow exponent.toNat * tenPow (-s).toNat / (tenPow s.toNat * twoPow (-exponent).toNat)

/-- Whether `a * 10 ^ s` is to be preferred to `(a + 1) * 10 ^ s`: it is nearer to the number, or
as near and even. -/
def prefersBelow (mantissa : Nat) (exponent : Int) (a : Nat) (s : Int) : Bool :=
  if decimalEq (2 * a + 1) s (2 * mantissa) exponent then a % 2 == 0
  else !decimalLt (2 * a + 1) s (2 * mantissa) exponent

/-- The shortest digits of a positive number, trying `count` digits and then more, and the power
of ten of the last of them. Seventeen digits are always enough. -/
def shortestFrom (mantissa : Nat) (exponent : Int) (point : Int) (count : Nat) :
    Nat → Nat × Int
  | 0 => (gridFloor mantissa exponent (point - count), point - count)
  | steps + 1 =>
      let s := point - count
      let a := gridFloor mantissa exponent s
      match readsBack mantissa exponent a s, readsBack mantissa exponent (a + 1) s with
      | true, true => if prefersBelow mantissa exponent a s then (a, s) else (a + 1, s)
      | true, false => (a, s)
      | false, true => (a + 1, s)
      | false, false => shortestFrom mantissa exponent point (count + 1) steps

def shortest (mantissa : Nat) (exponent : Int) : Nat × Int :=
  shortestFrom mantissa exponent (decimalPoint mantissa exponent) 1 17

/-- Where positional notation ends: numbers below `10 ^ -4` and from `10 ^ 16` on are written
with an exponent. -/
def isPositional (point : Int) : Bool :=
  -4 < point && point ≤ 16

def exponentText (e : Int) : List Char :=
  let digits := Nat.toDigits 10 e.natAbs
  'e' :: (if e < 0 then '-' else '+') :: (if digits.length < 2 then '0' :: digits else digits)

/-- Digits with the point after the first `point` of them. A whole number keeps one zero after
its point. -/
def positionalText (digits : List Char) (point : Int) : List Char :=
  if point ≤ 0 then '0' :: '.' :: List.replicate (-point).toNat '0' ++ digits
  else
    let whole := point.toNat
    if digits.length ≤ whole then
      digits ++ List.replicate (whole - digits.length) '0' ++ ['.', '0']
    else digits.take whole ++ '.' :: digits.drop whole

/-- Digits as one digit, a fraction if there are more, and an exponent. -/
def exponentialText (digits : List Char) (point : Int) : List Char :=
  let (first, others) := (digits.take 1, digits.drop 1)
  first ++ (if others.isEmpty then [] else '.' :: others) ++ exponentText (point - 1)

def dropTrailingZeros (digits : List Char) : List Char :=
  (digits.reverse.dropWhile (· == '0')).reverse

def magnitudeText (mantissa : Nat) (exponent : Int) : List Char :=
  if mantissa = 0 then ['0', '.', '0']
  else
    let (a, s) := shortest mantissa exponent
    let digits := Nat.toDigits 10 a
    let point := s + digits.length
    let digits := dropTrailingZeros digits
    if isPositional point then positionalText digits point else exponentialText digits point

def text : Binary64 → List Char
  | .nan => ['n', 'a', 'n']
  | .infinite negative => (if negative then ['-'] else []) ++ ['i', 'n', 'f']
  | .finite negative mantissa exponent =>
      (if negative then ['-'] else []) ++ magnitudeText mantissa exponent

end MediaSplit.Binary64
