import Fxml.Number.Binary64

/-! The text of a floating-point number: the fewest decimal digits that read back as the number,
in positional or scientific form. -/

namespace Fxml.Number

local instance (priority := high) decimalPower : Pow Nat Nat := instPowNat

structure Decimal where
  digits : Nat
  exponent : Int

/-- The fractions that read back as `significand * 2 ^ exponent`, in quarters of its unit. The
ends belong to the interval when the significand is even.
-/
structure Reach where
  low : Nat
  value : Nat
  high : Nat
  closed : Bool
  exponent : Int

/-- The reach of a finite positive number. Below a power of two the neighbour is nearer. -/
def reach (p : Parts) : Reach :=
  let value := 4 * p.significand
  {
    low := if p.significand = 2 ^ (52 : Nat) && p.exponent > -1074 then value - 1 else value - 2
    value
    high := value + 2
    closed := p.significand % 2 = 0
    exponent := p.exponent - 2
  }

/-- Compares `a * 2 ^ e` with `n * 10 ^ k` through exact whole numbers. -/
def compareScaled (a : Nat) (e : Int) (n : Nat) (k : Int) : Ordering :=
  let left := a * 2 ^ e.toNat * 10 ^ (-k).toNat
  let right := n * 10 ^ k.toNat * 2 ^ (-e).toNat
  compare left right

def Reach.holds (r : Reach) (n : Nat) (k : Int) : Bool :=
  let above := compareScaled r.low r.exponent n k
  let below := compareScaled r.high r.exponent n k
  (above == .lt || (r.closed && above == .eq)) && (below == .gt || (r.closed && below == .eq))

def Reach.floorAt (r : Reach) (k : Int) : Nat :=
  (r.value * 2 ^ r.exponent.toNat * 10 ^ (-k).toNat) / (10 ^ k.toNat * 2 ^ (-r.exponent).toNat)

/-- The nearer of the two neighbours on the grid of `10 ^ k` that read back, if one does; of two
equally near ones the even one.
-/
def Reach.onGrid? (r : Reach) (k : Int) : Option Nat :=
  let n := r.floorAt k
  match r.holds n k, r.holds (n + 1) k with
  | false, false => none
  | true, false => some n
  | false, true => some (n + 1)
  | true, true =>
    match compareScaled (2 * r.value) r.exponent (2 * n + 1) k with
    | .lt => some n
    | .gt => some (n + 1)
    | .eq => some (if n % 2 = 0 then n else n + 1)

/-- The exponent of the leading digit: the largest `k` below the start with `10 ^ k ≤ value`. -/
def Reach.leading (r : Reach) : Nat → Int → Int
  | 0, k => k
  | steps + 1, k =>
    if compareScaled r.value r.exponent 1 k == .lt then r.leading steps (k - 1) else k

/-- The first grid, from coarse to fine, with a decimal that reads back. -/
def Reach.search (r : Reach) : Nat → Int → Decimal
  | 0, k => ⟨r.floorAt k, k⟩
  | steps + 1, k =>
    match r.onGrid? k with
    | some digits => ⟨digits, k⟩
    | none => r.search steps (k - 1)

/-- The fewest digits that read back as a positive finite number. -/
def shortest (p : Parts) : Decimal :=
  let r := reach p
  r.search 17 (r.leading 640 309)

/-- Digits without the zeros at their end, and how many zeros there were. -/
def dropZeros (cs : List Char) : List Char × Nat :=
  let kept := (cs.reverse.dropWhile (· == '0')).reverse
  (kept, cs.length - kept.length)

/-- How a number is written: positionally from `least` to below `limit` as exponent of its leading
digit, otherwise with an exponent of at least `exponentWidth` digits and a sign.
-/
structure Layout where
  least : Int
  limit : Int
  exponentWidth : Nat

/-- The digits of a decimal in positional form, with at least one digit after the point. -/
def positional (digits : List Char) (point : Int) : List Char :=
  if point ≤ 0 then ['0', '.'] ++ List.replicate point.natAbs '0' ++ digits
  else if digits.length ≤ point.natAbs then
    digits ++ List.replicate (point.natAbs - digits.length) '0' ++ ['.', '0']
  else digits.take point.natAbs ++ '.' :: digits.drop point.natAbs

/-- The digits of a decimal with one digit before the point and a signed exponent. -/
def scientific (width : Nat) (digits : List Char) (point : Int) : List Char :=
  let exponent := point - 1
  let shown := (Nat.toDigits 10 exponent.natAbs)
  let tail := digits.drop 1
  digits.take 1 ++ (if tail.isEmpty then [] else '.' :: tail)
    ++ 'e' :: (if exponent < 0 then '-' else '+')
    :: (List.replicate (width - shown.length) '0' ++ shown)

def Layout.write (layout : Layout) (d : Decimal) : List Char :=
  let (digits, zeros) := dropZeros (Nat.toDigits 10 d.digits)
  let point : Int := d.exponent + zeros + digits.length
  if layout.least < point && point ≤ layout.limit then positional digits point
  else scientific layout.exponentWidth digits point

/-- Numbers from one ten-thousandth to below ten to the sixteenth are written positionally, all
others with an exponent of at least two digits.
-/
def sourceLayout : Layout := ⟨-4, 16, 2⟩

def floatText (x : Float) : String :=
  if x.isNaN then "nan"
  else if x.isInf then if x < 0.0 then "-inf" else "inf"
  else
    let p := parts x
    let sign := if p.negative then "-" else ""
    if p.significand = 0 then sign ++ "0.0"
    else sign ++ String.ofList (sourceLayout.write (shortest p))

end Fxml.Number
