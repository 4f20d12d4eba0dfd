/-!
# Binary floating point numbers of 64 bits

A number is a sign with `mantissa * 2 ^ exponent`, or an infinity. `ofDecimal` rounds a decimal
fraction to the nearest such number, in exact natural-number arithmetic: ties go to the even
mantissa, what is too large becomes an infinity, and what is too small becomes a zero.
-/

set_option autoImplicit false

namespace QueryPlan.Decimal

/-- A power of two. -/
def twoTo (n : Nat) : Nat := Nat.pow 2 n

/-- A power of ten. -/
def tenTo (n : Nat) : Nat := Nat.pow 10 n

/-- A 64-bit binary floating point number other than a NaN. -/
inductive Binary64
  /-- The number `mantissa * 2 ^ exponent` with a sign; a zero has a sign as well. -/
  | finite (negative : Bool) (mantissa : Nat) (exponent : Int)
  | infinite (negative : Bool)
deriving DecidableEq, Repr

namespace Binary64

/-- Mantissas have at most 53 bits. -/
def mantissaBits : Nat := 53

/-- The exponent of the smallest positive number. -/
def minExponent : Int := -1074

/-- The largest exponent of a number with a full mantissa. -/
def maxExponent : Int := 971

/-- The fraction `num / den / 2 ^ q` as a numerator and a denominator. -/
def scaleBy (num den : Nat) (q : Int) : Nat × Nat :=
  if 0 ≤ q then (num, den * twoTo q.toNat) else (num * twoTo (-q).toNat, den)

/-- The integer nearest to `num / den`; of two, the even one. -/
def roundHalfEven (num den : Nat) : Nat :=
  let quotient := num / den
  let twiceRest := 2 * (num % den)
  if twiceRest < den then quotient
  else if den < twiceRest then quotient + 1
  else if quotient % 2 = 0 then quotient else quotient + 1

/-- The exponent at which `num / den` has a mantissa of 53 bits, but never one below the
exponent of the smallest number. -/
def exponentFor (num den : Nat) : Int :=
  let q : Int := (num.log2 : Int) - den.log2 - mantissaBits
  let s := scaleBy num den q
  max minExponent (if s.1 / s.2 < twoTo mantissaBits then q else q + 1)

/-- The number nearest to the positive fraction `num / den`. -/
def ofFraction (negative : Bool) (num den : Nat) : Binary64 :=
  let q := exponentFor num den
  let s := scaleBy num den q
  let m := roundHalfEven s.1 s.2
  let (m, q) := if m = twoTo mantissaBits then (twoTo (mantissaBits - 1), q + 1) else (m, q)
  if maxExponent < q then infinite negative else finite negative m q

/-- The number nearest to `digits * 10 ^ exponent`. Beyond some four hundred places the outcome
no longer hangs on the digits, and the powers of ten are not computed. -/
def ofDecimal (negative : Bool) (digits : Nat) (exponent : Int) : Binary64 :=
  let places : Int := (Nat.toDigits 10 digits).length + exponent
  if digits = 0 || places < -400 then finite negative 0 minExponent
  else if 400 < places then infinite negative
  else if 0 ≤ exponent then ofFraction negative (digits * tenTo exponent.toNat) 1
  else ofFraction negative digits (tenTo (-exponent).toNat)

end Binary64

end QueryPlan.Decimal
