import Fxml.Number.Binary64

/-! Arithmetic on whole numbers of any size and floating-point numbers. A whole number that meets a
floating-point one is rounded to the nearest, but the two are compared exactly.
-/

namespace Fxml.Number

inductive Amount where
  | whole (n : Int)
  | real (x : Float)

inductive ArithmeticError where
  | zeroDivisor
  | tooLarge
deriving DecidableEq

namespace Amount

def toReal : Amount → Except ArithmeticError Float
  | real x => pure x
  | whole n => match ofInt? n with
    | some x => pure x
    | none => throw .tooLarge

def compareWhole (n : Int) (x : Float) : Option Ordering :=
  if x.isNaN then none
  else if x.isInf then some (if x < 0.0 then .gt else .lt)
  else
    let (num, den) := ratio x
    some (compare (n * den) num)

/-- How two numbers compare; a number that equals none compares with none. -/
def compare? : Amount → Amount → Option Ordering
  | whole m, whole n => some (compare m n)
  | whole m, real y => compareWhole m y
  | real x, whole n => (compareWhole n x).map Ordering.swap
  | real x, real y =>
    if x < y then some .lt else if y < x then some .gt else if x == y then some .eq else none

/-- Applies one of two operations: the first when both numbers are whole. -/
def combine (onWhole : Int → Int → Int) (onReal : Float → Float → Float) (a b : Amount)
    : Except ArithmeticError Amount :=
  match a, b with
  | whole m, whole n => pure (whole (onWhole m n))
  | _, _ => do return real (onReal (← a.toReal) (← b.toReal))

def add : Amount → Amount → Except ArithmeticError Amount := combine (· + ·) (· + ·)

def subtract : Amount → Amount → Except ArithmeticError Amount := combine (· - ·) (· - ·)

def multiply : Amount → Amount → Except ArithmeticError Amount := combine (· * ·) (· * ·)

def negate : Amount → Amount
  | whole n => whole (-n)
  | real x => real (-x)

def isZero : Amount → Bool
  | whole n => n = 0
  | real x => x == 0.0

/-- The quotient as a floating-point number; that of two whole numbers is rounded once. -/
def divide (a b : Amount) : Except ArithmeticError Amount :=
  match a, b with
  | whole m, whole n =>
    if n = 0 then throw .zeroDivisor
    else match nearest? ((m < 0) != (n < 0)) m.natAbs n.natAbs with
      | some x => pure (real x)
      | none => throw .tooLarge
  | _, _ => do
    let x ← a.toReal
    let y ← b.toReal
    if y == 0.0 then throw .zeroDivisor
    return real (x / y)

/-- The exact remainder of a division of finite numbers that goes toward zero. -/
def truncatedRemainder (x y : Float) : Float :=
  let p := parts x
  let q := parts y
  let exponent := min p.exponent q.exponent
  let left : Nat := p.significand <<< (p.exponent - exponent).toNat
  let right : Nat := q.significand <<< (q.exponent - exponent).toNat
  let rest : Nat := left % right
  let found :=
    if exponent < 0 then nearest? p.negative rest (1 <<< exponent.natAbs)
    else nearest? p.negative (rest <<< exponent.natAbs) 1
  found.getD notANumber

/-- The remainder that has the sign of the divisor. -/
def floatModulo (x y : Float) : Float :=
  if x.isNaN || y.isNaN || x.isInf then notANumber
  else
    let rest := if y.isInf then x else truncatedRemainder x y
    if rest == 0.0 then if y < 0.0 then -0.0 else 0.0
    else if (y < 0.0) != (rest < 0.0) then rest + y
    else rest

def modulo (a b : Amount) : Except ArithmeticError Amount :=
  match a, b with
  | whole m, whole n => if n = 0 then throw .zeroDivisor else pure (whole (m.fmod n))
  | _, _ => do
    let x ← a.toReal
    let y ← b.toReal
    if y == 0.0 then throw .zeroDivisor
    return real (floatModulo x y)

def truncate (x : Float) : Int :=
  let (num, den) := ratio x
  num.tdiv den

end Amount

/-! Powers of whole numbers modulo a whole number. -/

def powerModulo (base exponent modulus : Nat) : Nat :=
  if exponent = 0 then 1 % modulus
  else
    let half := powerModulo (base * base % modulus) (exponent / 2) modulus
    if exponent % 2 = 1 then half * base % modulus else half
termination_by exponent
decreasing_by omega

/-- The greatest common divisor of two remainders, with the multiple of the first number that it
is.
-/
def divisorWithFactor (r s : Nat) (x y : Int) : Nat × Int :=
  if s = 0 then (r, x) else divisorWithFactor s (r % s) y (x - (r / s : Nat) * y)
termination_by s
decreasing_by exact Nat.mod_lt _ (by omega)

/-- The number whose product with another is one modulo a number. -/
def inverseModulo? (n modulus : Nat) : Option Nat :=
  let (divisor, factor) := divisorWithFactor (n % modulus) modulus 1 0
  if divisor = 1 then some (factor % modulus).toNat else none

/-- A power of whole numbers modulo a number other than zero, with the sign of that number. A negative
exponent asks for the inverse, which there may not be.
-/
def powerModulo? (base exponent modulus : Int) : Option Int := do
  let m := modulus.natAbs
  if m = 1 then return 0
  let residue := (base % m).toNat
  let start ← if exponent < 0 then inverseModulo? residue m else some residue
  let power : Int := powerModulo start exponent.natAbs m
  return if modulus < 0 && power != 0 then power - m else power

end Fxml.Number

/-! Division that goes down to a whole number, powers, and operations on binary digits. -/

namespace Fxml.Number

def withSignOf (x y : Float) : Float :=
  let magnitude := Float.abs x
  if (parts y).negative then -magnitude else magnitude

/-- The whole quotient of floating-point numbers that is not above the exact one. -/
def floatFloorDivide (x y : Float) : Float :=
  if x.isNaN || y.isNaN || x.isInf then notANumber
  else
    let rest := if y.isInf then x else Amount.truncatedRemainder x y
    let quotient := (x - rest) / y
    let quotient := if rest != 0.0 && (y < 0.0) != (rest < 0.0) then quotient - 1.0 else quotient
    if quotient == 0.0 then withSignOf 0.0 (x / y)
    else
      let whole := quotient.floor
      if quotient - whole > 0.5 then whole + 1.0 else whole

namespace Amount

def floorDivide (a b : Amount) : Except ArithmeticError Amount :=
  match a, b with
  | whole m, whole n => if n = 0 then throw .zeroDivisor else pure (whole (m.fdiv n))
  | _, _ => do
    let x ← a.toReal
    let y ← b.toReal
    if y == 0.0 then throw .zeroDivisor
    return real (floatFloorDivide x y)

/-- Whether a power is no real number: its base is negative and its exponent is not whole. -/
def isPowerComplex (x y : Float) : Bool :=
  x < 0.0 && !x.isInf && !y.isNaN && !y.isInf && y.floor != y

def floatPower (x y : Float) : Except ArithmeticError Amount :=
  if x == 0.0 && y < 0.0 then throw .zeroDivisor
  else
    let z := Float.pow x y
    if z.isInf && !x.isInf && !y.isInf then throw .tooLarge else pure (real z)

/-- A power; one of whole numbers is whole unless its exponent is negative. -/
def power (a b : Amount) : Except ArithmeticError Amount :=
  match a, b with
  | whole m, whole n =>
    if 0 ≤ n then pure (whole (m.pow n.toNat))
    else do
      let x ← a.toReal
      let y ← b.toReal
      floatPower x y
  | _, _ => do
    let x ← a.toReal
    let y ← b.toReal
    floatPower x y

end Amount

/-- Combines the binary digits of two numbers. Negative numbers have infinitely many leading ones. -/
def bitwise (f : Bool → Bool → Bool) (m n : Int) : Int :=
  let width := max m.natAbs.log2 n.natAbs.log2 + 2
  let bit (k : Int) (i : Nat) : Bool := k >>> i % 2 = 1
  let bits := (List.range width).map fun i => f (bit m i) (bit n i)
  let value : Int := bits.foldr (fun b n => 2 * n + if b then 1 else 0) 0
  if bits.getLast?.getD false then value - 1 <<< width else value

def bitLength (n : Int) : Nat := if n = 0 then 0 else n.natAbs.log2 + 1

def bitCount (n : Int) : Nat :=
  ((List.range (bitLength n)).filter fun i => n.natAbs.testBit i).length

end Fxml.Number
