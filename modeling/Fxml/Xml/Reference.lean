import Fxml.Literal

/-! References read on their own: the text that `&name;` or `&#n;` stands for. -/

namespace Fxml.Xml

/-- Why a numbered reference stands for no character. -/
inductive ReferenceError where
  | notANumber
  | noCharacter
  | tooLarge
  | tooManyDigits (count : Nat)
deriving DecidableEq

def entityCharacter? : String → Option Char
  | "lt" => some '<'
  | "gt" => some '>'
  | "amp" => some '&'
  | "quot" => some '"'
  | "apos" => some '\''
  | _ => none

/-- The character with a number, or half of one. -/
def characterOf (n : Int) : Except ReferenceError Text.Point :=
  if 1 <<< 31 ≤ n || n < -(1 <<< 31) then .error .tooLarge
  else if n < 0 || 0x10FFFF < n then .error .noCharacter
  else .ok (.ofNat n.toNat)

/-- A hexadecimal number with an optional sign. -/
def readHex (text : String) : Except ReferenceError Int :=
  let (negative, digits) := Literal.takeSign (Text.strip text).toList
  if digits.isEmpty || !digits.all Text.isAsciiHex then .error .notANumber
  else
    let n : Int := Text.hexNumber digits
    .ok (if negative then -n else n)

/-- What a reference stands for; its first and last character are not looked at. An entity without a
declaration stands for nothing.
-/
def readReference (reference : String) : Except ReferenceError (Option Text.Point) := do
  let body := (reference.toList.drop 1).dropLast
  match body with
  | '#' :: 'x' :: digits | '#' :: 'X' :: digits => characterOf (← readHex (String.ofList digits))
  | '#' :: digits =>
    match Literal.readInt (String.ofList digits) with
    | .ok n => characterOf n
    | .error (.tooManyDigits count) => throw (.tooManyDigits count)
    | .error _ => throw .notANumber
  | _ => return (entityCharacter? (String.ofList body)).map .char

end Fxml.Xml
