import Fxml.Live.Arithmetic

/-! The methods of numbers. -/

open Fxml.Number

namespace Fxml.Live

open Number (Amount)

/-- A whole number rounded to a power of ten, a half to the even neighbour. -/
def roundedWhole (n : Int) (places : Int) : Int :=
  if 0 ≤ places then n
  else
    let unit := Nat.pow 10 places.natAbs
    let rounded : Int := (roundDiv n.natAbs unit * unit : Nat)
    if n < 0 then -rounded else rounded

/-- The whole number nearest to a finite one, a half to the even neighbour. -/
def nearestWhole (x : Float) : Int :=
  let (num, den) := ratio x
  let rounded : Int := roundDiv num.natAbs den
  if num < 0 then -rounded else rounded

def roundedReal (x : Float) (places : Int) : Float :=
  if x.isNaN || x.isInf || places > 323 then x
  else if places < -308 then withSignOf 0.0 x
  else
    let (num, den) := ratio x
    let digits :=
      if 0 ≤ places then roundDiv (num.natAbs * Nat.pow 10 places.natAbs) den
      else roundDiv num.natAbs (den * Nat.pow 10 places.natAbs)
    ofDecimal (parts x).negative digits (-places)

def wholeBytes (n : Int) (args : List Value) : Action Value := do
  let size ← match args with
    | [] => pure 1
    | size :: _ => wordIndexOf size
  let order ← match args with
    | [_, order] => requireText order
    | [_] | [] => pure "big"
    | _ => throw .wrongType
  if order != "big" && order != "little" then throw .wrongValue
  if size < 0 then throw .wrongValue
  if n < 0 || 1 <<< (8 * size.toNat) ≤ n then throw (.arithmetic .tooLarge)
  let low := (List.range size.toNat).map fun i => UInt8.ofNat (n.toNat >>> (8 * i) % 256)
  createBody .bytes (.bytes (if order == "big" then low.reverse else low))

def callWholeMethod (self : Value) (n : Int) (name : String) (args : List Value)
    : Action Value := do
  let itself : Action Value := match self with
    | .scalar (.int _) _ => pure self
    | _ => createInt n
  match name, args with
  | "conjugate", [] | "__int__", [] | "__index__", [] | "__trunc__", [] | "__floor__", []
  | "__ceil__", [] | "__pos__", [] | "__round__", [] => itself
  | "__round__", [places] => do createInt (roundedWhole n (← indexOf places))
  | "__abs__", [] => createInt n.natAbs
  | "__neg__", [] => createInt (-n)
  | "__invert__", [] => createInt (-n - 1)
  | "__bool__", [] => return .bool (n ≠ 0)
  | "__float__", [] => do createFloat (← nearestReal (.whole n))
  | "bit_length", [] => createInt (bitLength n)
  | "bit_count", [] => createInt (bitCount n)
  | "as_integer_ratio", [] => do createTuple [← itself, .small 1]
  | "to_bytes", args => wholeBytes n args
  | "__getnewargs__", [] => do createTuple [← createInt n]
  | "__format__", [layout] => do createChars (← layOutPlain self (← requireText layout).toList)
  | "__sizeof__", [] => return .small 28
  | _, _ => throw .wrongType

def callRealMethod (self : Value) (x : Float) (name : String) (args : List Value)
    : Action Value := do
  let itself : Action Value := match self with
    | .scalar _ _ => pure self
    | _ => createFloat x
  match name, args with
  | "conjugate", [] | "__float__", [] | "__pos__", [] => itself
  | "__int__", [] | "__trunc__", [] => do createInt (← truncated x)
  | "__floor__", [] => do
    discard (truncated x)
    createInt ((ratio x).1.fdiv (ratio x).2)
  | "__ceil__", [] => do
    discard (truncated x)
    createInt (-((-(ratio x).1).fdiv (ratio x).2))
  | "__round__", [] => do
    discard (truncated x)
    createInt (nearestWhole x)
  | "__round__", [places] => do
    if places.isNull then
      discard (truncated x)
      createInt (nearestWhole x)
    else
      let rounded := roundedReal x (← indexOf places)
      if rounded.isInf && !x.isInf then throw (.arithmetic .tooLarge) else createFloat rounded
  | "__abs__", [] => createFloat (Float.abs x)
  | "__neg__", [] => createFloat (-x)
  | "__bool__", [] => return .bool (x != 0.0)
  | "is_integer", [] =>
    return .bool (!x.isNaN && !x.isInf && (ratio x).1 % (ratio x).2 == 0)
  | "as_integer_ratio", [] => do
    discard (truncated x)
    let (num, den) := ratio x
    let common := Nat.gcd num.natAbs den
    createTuple [← createInt (num / common), ← createInt (den / common : Nat)]
  | "hex", [] => createText (Literal.hexText x)
  | "__getnewargs__", [] => do createTuple [← createFloat x]
  | "__format__", [layout] => do createChars (← layOutPlain self (← requireText layout).toList)
  | _, _ => throw .wrongType

def powerWithin (base exponent modulus : Value) : Action Value := do
  let w ← get
  match w.whole? base, w.whole? exponent, w.whole? modulus with
  | some b, some e, some m =>
    if m = 0 then throw .wrongValue
    match powerModulo? b e m with
    | some n => createInt n
    | none => throw .wrongValue
  | _, _, _ => pure .notImplemented

/-- Calls a method of a number: an operation on two numbers, or one of its own kind. A second operand
of another kind is not taken.
-/
def callNumberMethod (self : Value) (a : Amount) (name : String) (args : List Value)
    : Action Value := do
  let w ← get
  let takes (v : Value) : Option Amount := match a, w.amount? v with
    | .whole _, some (.whole n) => some (.whole n)
    | .whole _, _ => none
    | .real _, found => found
  match Binary.ofName? name, Binary.ofReflectedName? name, args with
  | some op, _, [b] => match takes b with
    | some y => match truthOperation? op self b with
      | some result => pure result
      | none => return (← amountOperation op a y).getD .notImplemented
    | none => pure .notImplemented
  | none, some op, [b] => match takes b with
    | some y => match truthOperation? op b self with
      | some result => pure result
      | none => return (← amountOperation op y a).getD .notImplemented
    | none => pure .notImplemented
  | some op, _, [b, modulus] | none, some op, [b, modulus] => match op, a with
    | .power, .whole _ =>
      if modulus.isNull then call (.builtin ⟨.integer, name⟩) [self, b]
      else if name == "__pow__" then powerWithin self b modulus
      else powerWithin b self modulus
    | .power, .real _ =>
      if modulus.isNull then call (.builtin ⟨.number, name⟩) [self, b] else throw .wrongType
    | _, _ => throw .wrongType
  | some _, _, _ | _, some _, _ => throw .wrongType
  | none, none, _ => match a with
    | .whole n => callWholeMethod self n name args
    | .real x => callRealMethod self x name args

end Fxml.Live
