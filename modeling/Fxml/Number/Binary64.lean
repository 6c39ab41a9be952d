/-! Floating-point numbers as exact fractions: a finite number is `significand * 2 ^ exponent`, and
every fraction has a nearest number. -/

namespace Fxml.Number

local instance (priority := high) binaryPower : Pow Nat Nat := instPowNat

/-- A finite number taken apart: its sign, significand and binary exponent. -/
structure Parts where
  negative : Bool
  significand : Nat
  exponent : Int

def parts (x : Float) : Parts :=
  let bits : Nat := x.toBits.toNat
  let biased : Nat := bits / 2 ^ (52 : Nat) % 2 ^ (11 : Nat)
  let fraction : Nat := bits % 2 ^ (52 : Nat)
  {
    negative := bits / 2 ^ (63 : Nat) = 1
    significand := if biased = 0 then fraction else 2 ^ (52 : Nat) + fraction
    exponent := (if biased = 0 then 1 else (biased : Int)) - 1075
  }

def ratio (x : Float) : Int × Nat :=
  let p := parts x
  let magnitude : Int := p.significand
  let signed := if p.negative then -magnitude else magnitude
  if p.exponent < 0 then (signed, 2 ^ p.exponent.natAbs)
  else (signed * (2 ^ p.exponent.natAbs : Nat), 1)

/-- The quotient rounded to the nearest whole number, a half to the even neighbour. -/
def roundDiv (num den : Nat) : Nat :=
  let quotient := num / den
  let twice := 2 * (num % den)
  if twice < den then quotient
  else if den < twice then quotient + 1
  else if quotient % 2 = 0 then quotient
  else quotient + 1

def scaled (num den : Nat) (exponent : Int) : Nat × Nat :=
  if exponent < 0 then (num * 2 ^ exponent.natAbs, den) else (num, den * 2 ^ exponent.natAbs)

/-- The bits of the nonnegative number nearest to a fraction, a tie to the even significand;
`none` when it is beyond the largest finite number.
-/
def nearestBits? (num den : Nat) : Option Nat :=
  if num = 0 then some 0
  else
    let guess : Int := (num.log2 : Int) - (den.log2 : Int) - 53
    let (n, d) := scaled num den guess
    let exact := if n / d < 2 ^ (53 : Nat) then guess else guess + 1
    let exponent := max exact (-1074)
    let (n, d) := scaled num den exponent
    let significand := roundDiv n d
    let (significand, exponent) :=
      if significand = 2 ^ (53 : Nat) then (2 ^ (52 : Nat), exponent + 1) else (significand, exponent)
    if exponent > 971 then none
    else if significand < 2 ^ (52 : Nat) then some significand
    else some ((exponent + 1074).toNat * 2 ^ (52 : Nat) + significand)

/-- The number nearest to a fraction, or `none` when it is too large. -/
def nearest? (negative : Bool) (num den : Nat) : Option Float :=
  (nearestBits? num den).map fun bits =>
    Float.ofBits (UInt64.ofNat (bits + if negative then 2 ^ (63 : Nat) else 0))

def infinity : Float := Float.ofBits 0x7FF0000000000000

/-- A number that equals none. -/
def notANumber : Float := Float.ofBits 0x7FF8000000000000

/-- The number nearest to a whole number, or `none` when it is too large. -/
def ofInt? (n : Int) : Option Float := nearest? (n < 0) n.natAbs 1

/-- The number nearest to `n * 2 ^ exponent`, or `none` when it is too large. Exponents far outside
the range are answered without forming the power.
-/
def ofBinary? (n : Nat) (exponent : Int) : Option Float :=
  let top := exponent + n.log2
  if n = 0 || top < -1100 then some 0.0
  else if top > 1100 then none
  else if exponent < 0 then nearest? false n (2 ^ exponent.natAbs)
  else nearest? false (n * 2 ^ exponent.natAbs) 1

/-- The number that a decimal `digits * 10 ^ exponent` denotes; one that is too large is infinite.
Exponents far outside the range are answered without forming the power.
-/
def ofDecimal (negative : Bool) (digits : Nat) (exponent : Int) : Float :=
  let signed (x : Float) : Float := if negative then -x else x
  let point := exponent + (Nat.toDigits 10 digits).length
  if digits = 0 || point < -400 then signed 0.0
  else if point > 400 then signed infinity
  else
    let found :=
      if exponent < 0 then nearest? negative digits (10 ^ exponent.natAbs)
      else nearest? negative (digits * 10 ^ exponent.natAbs) 1
    found.getD (signed infinity)

end Fxml.Number
