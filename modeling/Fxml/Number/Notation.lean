import Fxml.Number.Shortest

/-! Nonnegative numbers written with as many digits as asked: in positional form, in scientific form,
and in the shorter of the two. A number is given as a fraction and rounded once, a half to the even
neighbour.
-/

namespace Fxml.Number

def digitsIn (base n : Nat) : List Char := Nat.toDigits base n

def paddedDigits (count n : Nat) : List Char :=
  let digits := Nat.toDigits 10 n
  List.replicate (count - digits.length) '0' ++ digits

def leadingExponent (num den : Nat) : Int :=
  let guess : Int := (Nat.toDigits 10 num).length - (Nat.toDigits 10 den).length
  let reached :=
    if guess < 0 then den ≤ num * Nat.pow 10 guess.natAbs else den * Nat.pow 10 guess.natAbs ≤ num
  if reached then guess else guess - 1

/-- A fraction rounded to significant digits: the digits as one number, and the exponent of the first
of them.
-/
def significant (count num den : Nat) : Nat × Int :=
  if num = 0 then (0, 0)
  else
    let first := leadingExponent num den
    let shift : Int := count - 1 - first
    let digits :=
      if shift < 0 then roundDiv num (den * Nat.pow 10 shift.natAbs)
      else roundDiv (num * Nat.pow 10 shift.natAbs) den
    if digits = Nat.pow 10 count then (Nat.pow 10 (count - 1), first + 1) else (digits, first)

/-- Digits with a point before the last `places` of them; without places the point is written only
when asked for.
-/
def withPoint (places : Nat) (keepPoint : Bool) (digits : List Char) : List Char :=
  let whole := digits.take (digits.length - places)
  let rest := digits.drop (digits.length - places)
  if rest.isEmpty && !keepPoint then whole else whole ++ '.' :: rest

def fixedText (places : Nat) (keepPoint : Bool) (num den : Nat) : List Char :=
  withPoint places keepPoint (paddedDigits (places + 1) (roundDiv (num * Nat.pow 10 places) den))

def exponentText (e : Int) : List Char :=
  'e' :: (if e < 0 then '-' else '+') :: paddedDigits 2 e.natAbs

def scientificText (places : Nat) (keepPoint : Bool) (num den : Nat) : List Char :=
  let (digits, e) := significant (places + 1) num den
  withPoint places keepPoint (paddedDigits (places + 1) digits) ++ exponentText e

/-- Digits without the zeros at the end of their places, and without a point at the end. -/
def withoutTrailingZeros (cs : List Char) : List Char :=
  if cs.contains '.' then
    let kept := (cs.reverse.dropWhile (· = '0'))
    (if kept.head? = some '.' then kept.drop 1 else kept).reverse
  else cs

structure General where
  digits : Nat
  keepZeros : Bool
  markWhole : Bool

/-- A fraction to significant digits: in scientific form when its exponent is below minus four or
has no place among the digits, else in positional form.
-/
def General.write (g : General) (num den : Nat) : List Char :=
  let count := max g.digits 1
  let (digits, e) := significant count num den
  let trim := if g.keepZeros then id else withoutTrailingZeros
  if e < -4 || e ≥ count - (if g.markWhole then 1 else 0) then
    trim (withPoint (count - 1) g.keepZeros (paddedDigits count digits)) ++ exponentText e
  else
    let places := (count - 1 - e).toNat
    let text := trim (withPoint places g.keepZeros (paddedDigits (places + 1) digits))
    if g.markWhole && !text.contains '.' then text ++ ['.', '0'] else text

def grouped (size : Nat) (mark : Char) (digits : List Char) : List Char :=
  let marked := digits.reverse.zipIdx.flatMap fun (c, i) =>
    if i ≠ 0 && i % size = 0 then [mark, c] else [c]
  marked.reverse

end Fxml.Number

/-! Styles in which floating-point numbers are written. -/

namespace Fxml.Number

inductive Form where
  | fixed
  | scientific
  /-- The shorter of the other two, to significant digits. -/
  | general
  | shortest
deriving DecidableEq

structure Style where
  form : Form
  precision : Nat
  /-- Whether the point, and zeros at the end of a general form, stay. -/
  keepPoint : Bool
  markWhole : Bool
  upperCase : Bool

def withPointKept (cs : List Char) : List Char :=
  if cs.contains '.' then cs
  else cs.takeWhile (· != 'e') ++ '.' :: cs.dropWhile (· != 'e')

/-- The digits of the shortest form, where a whole number has a place only when asked for. -/
def shortestText (markWhole keepPoint : Bool) (x : Float) : List Char :=
  let digits := (floatText x).toList.dropWhile (· == '-')
  let trimmed := if markWhole then digits else
    if digits.drop (digits.length - 2) == ['.', '0'] then digits.take (digits.length - 2) else digits
  if keepPoint then withPointKept trimmed else trimmed

namespace Style

def magnitude (s : Style) (x : Float) : List Char :=
  if x.isNaN then ['n', 'a', 'n']
  else if x.isInf then ['i', 'n', 'f']
  else
    let (num, den) := ratio x
    match s.form with
    | .fixed => fixedText s.precision s.keepPoint num.natAbs den
    | .scientific => scientificText s.precision s.keepPoint num.natAbs den
    | .general => (General.mk s.precision s.keepPoint s.markWhole).write num.natAbs den
    | .shortest => shortestText s.markWhole s.keepPoint x

/-- Whether a number is written with a minus, and the rest of it. -/
def write (s : Style) (x : Float) : Bool × List Char :=
  let cs := s.magnitude x
  (!x.isNaN && (parts x).negative, if s.upperCase then cs.map Char.toUpper else cs)

def ofLetter? (letter : Char) (precision : Nat) (keepPoint : Bool) : Option Style :=
  let style (form : Form) : Style := ⟨form, precision, keepPoint, false, letter.isUpper⟩
  match letter.toLower with
  | 'f' => some (style .fixed)
  | 'e' => some (style .scientific)
  | 'g' => some (style .general)
  | _ => none

end Style

end Fxml.Number
