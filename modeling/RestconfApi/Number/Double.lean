/-!
# Numbers: binary64

Floating point numbers held exactly, as a significand below `2^53` times a power of two, the rounding of
a ratio to the nearest of them, and their sums and products.
-/

namespace RestconfApi

/-- A power with a whole exponent, one if the exponent is negative. -/
def power (base : Nat) (exponent : Int) : Nat := Nat.pow base exponent.toNat

/-- A binary64 number. A finite one has the value `± significand * 2 ^ exponent`, with the smallest
exponent, `-1074`, or a significand of 53 bits. -/
inductive Double where
  | finite (negative : Bool) (significand : Nat) (exponent : Int)
  | infinite (negative : Bool)
  | nan
deriving DecidableEq, Repr

namespace Double

/-- The quotient rounded to the nearest whole number, a half to the even one. -/
def roundDiv (num den : Nat) : Nat :=
  let q := num / den
  let r := num % den
  if den < 2 * r || (den == 2 * r && q % 2 == 1) then q + 1 else q

/-- `num / den / 2 ^ e` as a ratio of natural numbers. -/
def scale (num den : Nat) (e : Int) : Nat × Nat := (num * power 2 (-e), den * power 2 e)

def zero (negative : Bool) : Double := .finite negative 0 (-1074)

/-- The number nearest to `± num / den`. -/
def ofRatio (negative : Bool) (num den : Nat) : Double :=
  if num = 0 then zero negative
  else
    let guess : Int := (num.log2 : Int) - den.log2 - 53
    let (n, d) := scale num den guess
    let tight := if power 2 53 ≤ n / d then guess + 1 else guess
    let e := max tight (-1074)
    let (n, d) := scale num den e
    let m := roundDiv n d
    let (m, e) := if m = power 2 53 then (power 2 52, e + 1) else (m, e)
    if 971 < e then .infinite negative else .finite negative m e

/-- The number nearest to `± digits * 10 ^ exponent`. Exponents out of all range are cut off before
any power is taken; a bit is about `0.30103` of a decimal digit. -/
def ofDecimal (negative : Bool) (digits : Nat) (exponent : Int) : Double :=
  let size : Int := (digits.log2 : Int) * 30103 / 100000 + exponent
  if digits = 0 then zero negative
  else if 800 < size then .infinite negative
  else if size < -800 then zero negative
  else ofRatio negative (digits * power 10 exponent) (power 10 (-exponent))

def isZero : Double → Bool
  | .finite _ m _ => m == 0
  | _ => false

def isNegative : Double → Bool
  | .finite negative _ _ | .infinite negative => negative
  | .nan => false

def neg : Double → Double
  | .finite negative m e => .finite (!negative) m e
  | .infinite negative => .infinite (!negative)
  | .nan => .nan

/-- The whole number that this number is, if it is one. -/
def toInt? : Double → Option Int
  | .finite negative m e =>
    let (n, d) := (m * power 2 e, power 2 (-e))
    if n % d = 0 then some (if negative then -((n / d : Nat) : Int) else ((n / d : Nat) : Int)) else none
  | _ => none

/-- The number nearest to a whole one, if it is in range. -/
def ofNat? (n : Nat) : Option Double :=
  match ofRatio false n 1 with
  | .infinite _ => none
  | x => some x

/-! ### Arithmetic -/

/-- The number nearest to `n * 2 ^ e`, a zero without a sign. -/
def ofScaled (n : Int) (e : Int) : Double :=
  ofRatio (n < 0) (n.natAbs * power 2 e) (power 2 (-e))

def add : Double → Double → Double
  | .nan, _ | _, .nan => .nan
  | .infinite a, .infinite b => if a = b then .infinite a else .nan
  | .infinite a, _ | _, .infinite a => .infinite a
  | .finite a m e, .finite b n f =>
    if m = 0 && n = 0 then zero (a && b)
    else
      let low := min e f
      let x : Int := m * power 2 (e - low)
      let y : Int := n * power 2 (f - low)
      ofScaled ((if a then -x else x) + (if b then -y else y)) low

def mul : Double → Double → Double
  | .nan, _ | _, .nan => .nan
  | .finite a m e, .finite b n f =>
    if m = 0 || n = 0 then zero (a != b)
    else ofRatio (a != b) (m * n * power 2 (e + f)) (power 2 (-(e + f)))
  | x, y => if x.isZero || y.isZero then .nan else .infinite (x.isNegative != y.isNegative)

/-! ### Order -/

/-- Whether a number is below another one; nothing is below or above what is no number. -/
def below : Double → Double → Bool
  | .nan, _ | _, .nan => false
  | .infinite a, .infinite b => a && !b
  | .infinite a, _ => a
  | _, .infinite b => !b
  | .finite a m e, .finite b n f =>
    let low := min e f
    let x : Int := m * power 2 (e - low)
    let y : Int := n * power 2 (f - low)
    (if a then -x else x) < (if b then -y else y)

end Double

end RestconfApi
