import Fxml.Number.Binary64
import Fxml.Text.Blank
import Fxml.Text.Case
import Fxml.Text.Quoted
import Fxml.Text.Word

/-! Literal text: numbers, truth values, names of enumeration members and lists. Blanks around a
literal do not count, and digits of every script do.
-/

open Fxml.Text Fxml.Number

namespace Fxml.Literal

inductive Error where
  | notInteger (text : String)
  | notNumber (text : String)
  | outOfRange (text : String)
  | notBoolean (text : String)
  | tooManyDigits (count : Nat)
deriving DecidableEq

def Error.message : Error → String
  | .notInteger text => "not an integer: " ++ shown text
  | .notNumber text => "not a number: " ++ shown text
  | .outOfRange text => "out of range: " ++ shown text
  | .notBoolean text => "not a boolean: " ++ shown text
  | .tooManyDigits count =>
    "Exceeds the limit (4300 digits) for integer string conversion: value has " ++ toString count
      ++ " digits; use sys.set_int_max_str_digits() to increase the limit"

/-- A sign at the front of a text: whether it is a minus, and the rest. -/
def takeSign : List Char → Bool × List Char
  | '-' :: rest => (true, rest)
  | '+' :: rest => (false, rest)
  | cs => (false, cs)

/-- Reads a whole number: an optional sign and digits. -/
def readInt (text : String) : Except Error Int :=
  let text := strip text
  let (negative, digits) := takeSign text.toList
  if digits.isEmpty || !digits.all isDecimal then .error (.notInteger text)
  else if digitLimit < digits.length then .error (.tooManyDigits digits.length)
  else
    let n : Int := decimalNumber digits
    .ok (if negative then -n else n)

/-- The digits, the places after the point and the exponent of a number without its sign. There is a
digit before the exponent, and one after its letter if it is there.
-/
def decimalParts? (cs : List Char) : Option (List Char × Nat × Int) :=
  let whole := cs.takeWhile isDecimal
  let rest := cs.dropWhile isDecimal
  let (places, rest) :=
    match rest with
    | '.' :: rest => (rest.takeWhile isDecimal, rest.dropWhile isDecimal)
    | rest => ([], rest)
  if whole.isEmpty && places.isEmpty then none
  else
    match rest with
    | [] => some (whole ++ places, places.length, 0)
    | e :: rest =>
      let (negative, digits) := takeSign rest
      if (e == 'e' || e == 'E') && !digits.isEmpty && digits.all isDecimal then
        let n : Int := decimalNumber digits
        some (whole ++ places, places.length, if negative then -n else n)
      else none

/-- Reads a number in decimal or exponent form, or one of the names of the special numbers. A
decimal beyond the largest number is refused.
-/
def readFloat (text : String) : Except Error Float :=
  let text := strip text
  match text with
  | "Infinity" | "+Infinity" => .ok infinity
  | "-Infinity" => .ok (-infinity)
  | "NaN" => .ok notANumber
  | _ =>
    let (negative, rest) := takeSign text.toList
    match decimalParts? rest with
    | none => .error (.notNumber text)
    | some (digits, places, exponent) =>
      let x := ofDecimal negative (decimalNumber digits) (exponent - places)
      if x.isInf then .error (.outOfRange text) else .ok x

def readBool (text : String) : Except Error Bool :=
  match lower (strip text) with
  | "true" => .ok true
  | "false" => .ok false
  | _ => .error (.notBoolean text)

/-- The member that a text names: by exact name, else the only one that differs in case alone. -/
def member? (members : List String) (text : String) : Option String :=
  let text := strip text
  if members.contains text then some text
  else
    match members.filter fun m => lower m == lower text with
    | [m] => some m
    | _ => none

/-- The items of a list divided by commas; blank text is an empty list. -/
def items (text : String) : List String :=
  if isAllBlank text then []
  else (text.toList.splitOn ',').map fun item => strip (String.ofList item)

/-! Numerals as conversions to numbers read them: blanks around them do not count, single underscores
may stand between digits, and whole numbers may be written in any base up to thirty-six.
-/

/-- The value of a digit in any base: decimal digits of every script, then letters. -/
def digitValue? (c : Char) : Option Nat :=
  match decimalValue? c with
  | some n => some n
  | none =>
    if 'a' ≤ c && c ≤ 'z' then some (c.toNat - 'a'.toNat + 10)
    else if 'A' ≤ c && c ≤ 'Z' then some (c.toNat - 'A'.toNat + 10)
    else none

/-- The number that digits of a base spell, with single underscores between them. `afterDigit`
tells whether the last character was a digit.
-/
def numberIn? (base : Nat) (value : Nat) (afterDigit : Bool) : List Char → Option Nat
  | [] => if afterDigit then some value else none
  | c :: rest =>
    if c = '_' then if afterDigit then numberIn? base value false rest else none
    else
      match digitValue? c with
      | some d => if d < base then numberIn? base (base * value + d) true rest else none
      | none => none

def announcedBase? (c : Char) : Option Nat :=
  if c = 'x' || c = 'X' then some 16
  else if c = 'o' || c = 'O' then some 8
  else if c = 'b' || c = 'B' then some 2
  else none

/-- Digits after an announced base, before which one underscore may stand. -/
def afterBase (cs : List Char) : List Char :=
  match cs with
  | '_' :: rest => rest
  | _ => cs

/-- The number that a text without sign and blanks spells. Base zero stands for the base that the
text announces, or ten; then zeros may stand in front of nothing but zeros.
-/
def magnitude? (base : Nat) (cs : List Char) : Option Nat :=
  let zero (c : Char) : Bool := decimalValue? c == some 0
  match cs with
  | z :: letter :: rest =>
    match if zero z then announcedBase? letter else none with
    | some announced =>
      if base = 0 || base = announced then numberIn? announced 0 false (afterBase rest)
      else numberIn? base 0 false cs
    | none =>
      if base = 0 then
        (numberIn? 10 0 false cs).filter fun n => !zero z || n = 0
      else numberIn? base 0 false cs
  | _ => numberIn? (if base = 0 then 10 else base) 0 false cs

def wholeNumber? (base : Nat) (cs : List Char) : Option Int :=
  let (negative, digits) := takeSign (trimBy isBlank cs)
  (magnitude? base digits).map fun n => if negative then -(n : Int) else n

def withoutUnderscores? (afterDigit : Bool) : List Char → Option (List Char)
  | [] => some []
  | '_' :: c :: rest =>
    if afterDigit && isDecimal c then (withoutUnderscores? true rest).map (c :: ·) else none
  | ['_'] => none
  | c :: rest => (withoutUnderscores? (isDecimal c) rest).map (c :: ·)

/-- Reads a floating-point number, also one of the names of the special numbers in any case. -/
def floatNumber? (cs : List Char) : Option Float := do
  let cs ← withoutUnderscores? false (trimBy isBlank cs)
  let (negative, rest) := takeSign cs
  let signed (x : Float) : Float := if negative then -x else x
  match String.ofList (rest.map Char.toLower) with
  | "inf" | "infinity" => some (signed infinity)
  | "nan" => some notANumber
  | _ =>
    let (digits, places, exponent) ← decimalParts? rest
    some (ofDecimal negative (decimalNumber digits) (exponent - places))

/-! Floating-point numbers in hexadecimal form, written and read: the digits are those of a
coefficient, and the exponent after them is one of two.
-/

def hexText (x : Float) : String :=
  if x.isNaN then "nan"
  else if x.isInf then if x < 0.0 then "-inf" else "inf"
  else
    let bits : Nat := x.toBits.toNat
    let biased : Nat := bits >>> 52 % 2048
    let fraction : Nat := bits % 1 <<< 52
    let sign := if bits >>> 63 = 1 then "-" else ""
    if biased = 0 && fraction = 0 then sign ++ "0x0.0p+0"
    else
      let exponent : Int := if biased = 0 then -1022 else (biased : Int) - 1023
      sign ++ (if biased = 0 then "0x0." else "0x1.") ++ String.ofList (hexDigits 13 fraction)
        ++ "p" ++ (if exponent < 0 then "-" else "+") ++ toString exponent.natAbs

inductive HexError where
  | malformed
  | tooLarge
deriving DecidableEq

def hexValue? (c : Char) : Option Nat := "0123456789abcdef".toList.findIdx? (· == c.toLower)

def isHexDigit (c : Char) : Bool := (hexValue? c).isSome

def hexNumber (digits : List Char) : Nat :=
  digits.foldl (fun n c => 16 * n + (hexValue? c).getD 0) 0

def isHexBlank (c : Char) : Bool := c == ' ' || ('\t' ≤ c && c ≤ '\r')

/-- The name of a special number in any case at the front of a text, and the rest. -/
def takeSpecial? (cs : List Char) : Option (Float × List Char) :=
  let startsWith (name : String) : Bool := name.toList.isPrefixOf (cs.map Char.toLower)
  if startsWith "infinity" then some (infinity, cs.drop 8)
  else if startsWith "inf" then some (infinity, cs.drop 3)
  else if startsWith "nan" then some (notANumber, cs.drop 3)
  else none

/-- A text without the mark of hexadecimal form at its front. -/
def withoutMark (cs : List Char) : List Char :=
  match cs with
  | '0' :: x :: rest => if x == 'x' || x == 'X' then rest else cs
  | _ => cs

/-- The digits of a coefficient at the front of a text, how many of them stand after a point, and the
rest.
-/
def takeCoefficient (cs : List Char) : List Char × Nat × List Char :=
  let whole := cs.takeWhile isHexDigit
  match cs.dropWhile isHexDigit with
  | '.' :: rest =>
    let places := rest.takeWhile isHexDigit
    (whole ++ places, places.length, rest.dropWhile isHexDigit)
  | rest => (whole, 0, rest)

/-- An exponent at the front of a text, zero if there is none, and the rest; there is a digit after
its letter.
-/
def takeExponent? (cs : List Char) : Option (Int × List Char) :=
  match cs with
  | p :: rest =>
    if p == 'p' || p == 'P' then
      let (negative, rest) := takeSign rest
      let digits := rest.takeWhile Char.isDigit
      let n : Int := decimalNumber digits
      if digits.isEmpty then none
      else some (if negative then -n else n, rest.dropWhile Char.isDigit)
    else some (0, cs)
  | [] => some (0, [])

/-- A number without its sign at the front of a text, and the rest. -/
def takeHex (cs : List Char) : Except HexError (Float × List Char) :=
  match takeSpecial? cs with
  | some found => .ok found
  | none =>
    let (digits, places, rest) := takeCoefficient (withoutMark cs)
    match takeExponent? rest with
    | some (exponent, rest) =>
      if digits.isEmpty then .error .malformed
      else
        match ofBinary? (hexNumber digits) (exponent - 4 * (places : Int)) with
        | some x => .ok (x, rest)
        | none => .error .tooLarge
    | none => .error .malformed

/-- Reads a number in hexadecimal form; the mark, the point and the exponent may be left out. -/
def readHex (text : String) : Except HexError Float := do
  let (negative, rest) := takeSign (text.toList.dropWhile isHexBlank)
  let (x, rest) ← takeHex rest
  if rest.all isHexBlank then .ok (if negative then -x else x) else .error .malformed

end Fxml.Literal
