import QueryPlan.Decimal.Binary64

/-!
# The shortest decimal that reads back

Of all decimals that round to a given binary number, `shortest` picks one with the fewest
digits, and of those the nearest; of two equally near it picks the larger. The search goes
through the decimal grids from coarse to fine and looks at the two neighbours of the value on
each, in exact arithmetic. `render` writes the result without an exponent.
-/

set_option autoImplicit false

namespace QueryPlan.Decimal

/-- The decimals that round to one binary number: the bounds and the number itself, all three
over a common denominator, and whether the bounds belong to it. -/
structure RoundingInterval where
  low : Nat
  value : Nat
  high : Nat
  den : Nat
  closed : Bool
deriving Repr

namespace RoundingInterval

/-- The interval of `mantissa * 2 ^ exponent`: half way to both neighbours. The neighbour below
a power of two is only half as far, unless the numbers there are equally spaced. -/
def of (mantissa : Nat) (exponent : Int) : RoundingInterval :=
  let narrow := mantissa = twoTo (Binary64.mantissaBits - 1) && Binary64.minExponent < exponent
  let up : Nat := if 2 ≤ exponent then twoTo (exponent - 2).toNat else 1
  let down : Nat := if 2 ≤ exponent then 1 else twoTo (2 - exponent).toNat
  { low := (4 * mantissa - (if narrow then 1 else 2)) * up
    value := 4 * mantissa * up
    high := (4 * mantissa + 2) * up
    den := down
    closed := mantissa % 2 = 0 }

/-- The power of ten `10 ^ g` as a numerator and a denominator. -/
def powerOfTen (g : Int) : Nat × Nat :=
  if 0 ≤ g then (tenTo g.toNat, 1) else (1, tenTo (-g).toNat)

/-- Whether `k * 10 ^ g` lies in the interval. -/
def contains (i : RoundingInterval) (k : Nat) (g : Int) : Bool :=
  let t := powerOfTen g
  let point := k * t.1 * i.den
  if i.closed then i.low * t.2 ≤ point && point ≤ i.high * t.2
  else i.low * t.2 < point && point < i.high * t.2

/-- The largest `k` with `k * 10 ^ g` at most the value. -/
def below (i : RoundingInterval) (g : Int) : Nat :=
  let t := powerOfTen g
  i.value * t.2 / (t.1 * i.den)

/-- Whether the value is nearer to `k * 10 ^ g` than to the next point of that grid. -/
def nearerBelow (i : RoundingInterval) (k : Nat) (g : Int) : Bool :=
  let t := powerOfTen g
  2 * i.value * t.2 < (2 * k + 1) * t.1 * i.den

/-- The point of the grid `10 ^ g` that reads back as the value, if one does. -/
def hit? (i : RoundingInterval) (g : Int) : Option Nat :=
  let k := i.below g
  match i.contains k g, i.contains (k + 1) g with
  | false, false => none
  | true, false => some k
  | false, true => some (k + 1)
  | true, true => if i.nearerBelow k g then some k else some (k + 1)

/-- The place of the leading digit of the value: it is at least `10 ^ e` and less than
`10 ^ (e + 1)`. -/
def leadingPlace (i : RoundingInterval) : Int :=
  ((Nat.toDigits 10 (i.value * tenTo 400 / i.den)).length : Int) - 401

/-- Goes through at most `n` grids from `10 ^ g` on, each ten times finer than the last. -/
def search (i : RoundingInterval) : Nat → Int → Nat × Int
  | 0, g => (i.below g, g)
  | n + 1, g =>
    match i.hit? g with
    | some k => (k, g)
    | none => i.search n (g - 1)

end RoundingInterval

/-- A shortest decimal `k * 10 ^ g` that reads back as `mantissa * 2 ^ exponent`. Seventeen
digits are always enough. -/
def shortest (mantissa : Nat) (exponent : Int) : Nat × Int :=
  let i := RoundingInterval.of mantissa exponent
  i.search 17 i.leadingPlace

/-- The decimal `k * 10 ^ g` written without an exponent, without a point where it is whole,
and without zeros at the end of its fraction. -/
def positional (k : Nat) (g : Int) : String :=
  let ds := Nat.toDigits 10 k
  if 0 ≤ g then String.ofList (ds ++ List.replicate g.toNat '0')
  else
    let places := (-g).toNat
    let padded := List.replicate (places + 1 - ds.length) '0' ++ ds
    let whole := padded.take (padded.length - places)
    let fraction := ((padded.drop (padded.length - places)).reverse.dropWhile (· = '0')).reverse
    String.ofList (if fraction.isEmpty then whole else whole ++ '.' :: fraction)

/-- A number as text: its shortest digits, in positional notation. -/
def Binary64.render : Binary64 → String
  | infinite negative => if negative then "-inf" else "inf"
  | finite negative mantissa exponent =>
    let digits :=
      if mantissa = 0 then "0"
      else
        let (k, g) := shortest mantissa exponent
        positional k g
    if negative then "-" ++ digits else digits

end QueryPlan.Decimal
