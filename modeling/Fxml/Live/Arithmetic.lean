import Fxml.Live.Formatting

/-! Arithmetic on values. Numbers are computed with, texts, lists and tuples are put together and
repeated, and a text takes values in. A class can say how its values are computed with.
-/

open Fxml.Number

namespace Fxml.Live

open Number (Amount)

inductive Binary where
  | add
  | subtract
  | multiply
  | divide
  | modulo
  | floorDivide
  | divideWithRest
  | power
  | bitAnd
  | bitOr
  | bitXor
  | shiftLeft
  | shiftRight
deriving DecidableEq

namespace Binary

def stem : Binary → String
  | add => "add"
  | subtract => "sub"
  | multiply => "mul"
  | divide => "truediv"
  | modulo => "mod"
  | floorDivide => "floordiv"
  | divideWithRest => "divmod"
  | power => "pow"
  | bitAnd => "and"
  | bitOr => "or"
  | bitXor => "xor"
  | shiftLeft => "lshift"
  | shiftRight => "rshift"

/-- The name under which a class declares the operation for a first operand. -/
def name (op : Binary) : String := "__" ++ op.stem ++ "__"

/-- The name under which a class declares the operation for a second operand. -/
def reflectedName (op : Binary) : String := "__r" ++ op.stem ++ "__"

def all : List Binary :=
  [add, subtract, multiply, divide, modulo, floorDivide, divideWithRest, power, bitAnd, bitOr,
    bitXor, shiftLeft, shiftRight]

def ofName? (name : String) : Option Binary := all.find? (·.name == name)

def ofReflectedName? (name : String) : Option Binary := all.find? (·.reflectedName == name)

end Binary

def shiftLimit : Int := 1 <<< 20

/-- An operation on whole numbers that floating-point numbers do not have. -/
def bitOperation (op : Binary) (m n : Int) : Action (Option Value) := do
  match op with
  | .bitAnd => some <$> createInt (bitwise and m n)
  | .bitOr => some <$> createInt (bitwise or m n)
  | .bitXor => some <$> createInt (bitwise xor m n)
  | .shiftLeft =>
    if n < 0 then throw .wrongValue
    else if shiftLimit < n then throw .tooMuch
    else some <$> createInt (m <<< n.toNat)
  | .shiftRight =>
    if n < 0 then throw .wrongValue
    else some <$> createInt (m >>> (min n (bitLength m + 1)).toNat)
  | _ => return none

def amountOperation (op : Binary) (x y : Amount) : Action (Option Value) := do
  match op with
  | .add => some <$> createResult (x.add y)
  | .subtract => some <$> createResult (x.subtract y)
  | .multiply => some <$> createResult (x.multiply y)
  | .divide => some <$> createResult (x.divide y)
  | .modulo => some <$> createResult (x.modulo y)
  | .floorDivide => some <$> createResult (x.floorDivide y)
  | .divideWithRest =>
    let quotient ← createResult (x.floorDivide y)
    some <$> createTuple [quotient, ← createResult (x.modulo y)]
  | .power => match x.toReal, y.toReal with
    | .ok u, .ok v =>
      if Amount.isPowerComplex u v then some <$> createBody .complex .plain
      else some <$> createResult (x.power y)
    | _, _ => some <$> createResult (x.power y)
  | _ => match x, y with
    | .whole m, .whole n => bitOperation op m n
    | _, _ => return none

def truthOperation? (op : Binary) (a b : Value) : Option Value :=
  match op, a, b with
  | .bitAnd, .scalar (.bool p) _, .scalar (.bool q) _ => some (.bool (p && q))
  | .bitOr, .scalar (.bool p) _, .scalar (.bool q) _ => some (.bool (p || q))
  | .bitXor, .scalar (.bool p) _, .scalar (.bool q) _ => some (.bool (p != q))
  | _, _, _ => none

/-- An operation on values of basic kinds as numbers; `none` when they are none. -/
def numberOperation (op : Binary) (a b : Value) : Action (Option Value) := do
  let w ← get
  match truthOperation? op a b, w.amount? a, w.amount? b with
  | some result, _, _ => return some result
  | none, some (.whole _), some (.real _) =>
    if (w.override? b op.reflectedName).isSome then return none
    else match w.amount? a, w.amount? b with
      | some x, some y => amountOperation op x y
      | _, _ => return none
  | none, some x, some y => amountOperation op x y
  | none, _, _ => match op, w.text? a with
    | .modulo, some template => do
      return some (← createChars (← fillTemplate template b))
    | _, _ => return none

/-- What two values put one after the other are; `none` when they cannot be. -/
def joined? (a b : Value) : Action (Option Value) := do
  let w ← get
  match w.text? a, w.text? b with
  | some s, some t =>
    match a, b with
    | .scalar _ _, .scalar _ _ =>
      if s.isEmpty then return some b
      else if t.isEmpty then return some a
      else some <$> createText (s ++ t)
    | _, _ => some <$> createText (s ++ t)
  | _, _ => match w.body? a, w.body? b with
    | some (.list xs), some (.list ys) => some <$> createList (xs ++ ys)
    | some (.tuple xs), some (.tuple ys) => some <$> createTuple (xs ++ ys)
    | some (.bytes xs), some (.bytes ys) => some <$> createBody .bytes (.bytes (xs ++ ys))
    | _, _ => return none

/-- How often a sequence is to be repeated, if there is room; `tooLong` is the failure of a sequence
whose size is no machine word.
-/
def repetitions (size : Nat) (count : Int) (tooLong : Error) : Action Nat :=
  if size = 0 then pure 0
  else if 1 <<< 63 ≤ size * count then throw tooLong
  else if sizeLimit < size * count then throw .tooMuch
  else pure count.toNat

def repeated? (sequence count : Value) : Action (Option Value) := do
  let w ← get
  match w.text? sequence, w.body? sequence with
  | some s, _ =>
    let n ← wordIndexOf count
    match sequence, n with
    | .scalar _ _, 1 => return some sequence
    | _, _ =>
      let times ← repetitions s.length n (.arithmetic .tooLarge)
      some <$> createChars (List.replicate times s.toList).flatten
  | none, some (.list items) =>
    let times ← repetitions items.length (← wordIndexOf count) .tooMuch
    some <$> createList (List.replicate times items).flatten
  | none, some (.tuple items) =>
    let times ← repetitions items.length (← wordIndexOf count) .tooMuch
    some <$> createTuple (List.replicate times items).flatten
  | none, some (.bytes data) =>
    let times ← repetitions data.length (← wordIndexOf count) (.arithmetic .tooLarge)
    some <$> createBody .bytes (.bytes (List.replicate times data).flatten)
  | none, _ => return none

/-- An operation on sequences: they are put together, or repeated. -/
def sequenceOperation (op : Binary) (a b : Value) : Action (Option Value) := do
  match op with
  | .add => joined? a b
  | .multiply => match ← repeated? a b with
    | some result => return some result
    | none => repeated? b a
  | _ => return none

/-- Whether a value of a class that refines the other's is asked first about an operation. -/
def World.asksSecondFirst (w : World) (op : Binary) (a b : Value) : Bool :=
  let t := w.typeOf a
  let u := w.typeOf b
  t != u && w.refines u t
    && match w.override? b op.reflectedName, w.override? a op.reflectedName with
      | some m, some n => !m.identical n
      | some _, none => true
      | none, _ => false

/-- The operation of a sequence whose class declares the reflected one: it must take its operand. -/
def ownSequenceOperation? (op : Binary) (a b : Value) : Action (Option Value) := do
  let w ← get
  if (w.override? a op.reflectedName).isSome && w.supports a op.name && (w.amount? a).isNone then
    let result ← match op with
      | .add => joined? a b
      | .multiply => repeated? a b
      | _ => return none
    match result with
    | some _ => return result
    | none => throw .wrongType
  else return none

def answerFirst (op : Binary) (a b : Value) : Action Value := do
  match ← callOverride? a op.name [b] with
  | some result => pure result
  | none => match ← ownSequenceOperation? op a b with
    | some result => pure result
    | none => return (← numberOperation op a b).getD .notImplemented

def answerSecond (op : Binary) (a b : Value) : Action Value := do
  return (← callOverride? b op.reflectedName [a]).getD .notImplemented

/-- The result of an operation as far as the operands answer, else that no one does. -/
def askBinary (op : Binary) (a b : Value) : Action Value := do
  let w ← get
  let secondFirst := w.asksSecondFirst op a b
  let early ← if secondFirst then answerSecond op a b else pure .notImplemented
  if !early.isNotImplemented then pure early
  else
    let first ← answerFirst op a b
    if !first.isNotImplemented then pure first
    else if secondFirst || w.typeOf a == w.typeOf b then pure .notImplemented
    else answerSecond op a b

def applyBinary (op : Binary) (a b : Value) : Action Value := do
  let result ← askBinary op a b
  if !result.isNotImplemented then pure result
  else match ← sequenceOperation op a b with
    | some result => pure result
    | none => throw .wrongType

def negate (a : Value) : Action Value := do
  match ← callOverride? a "__neg__" [] with
  | some result => pure result
  | none => match (← get).amount? a with
    | some x => createAmount x.negate
    | none => throw .wrongType

/-- Adds a value by an assignment. A list takes the elements in; any other value gives a new one. The
value may answer for a plain list, but not for one of a class.
-/
def addInPlace (a b : Value) : Action Value := do
  match ← callOverride? a "__iadd__" [b] with
  | some result => if !result.isNotImplemented then pure result else applyBinary .add a b
  | none =>
    let w ← get
    if (w.items? a).isSome && w.typeOf a != .basic .list then
      extendList (w.isOf a .observableList) a b
      pure a
    else
      let result ← askBinary .add a b
      if !result.isNotImplemented then pure result
      else match w.items? a with
        | some _ =>
          extendList false a b
          pure a
        | none => match ← joined? a b with
          | some result => pure result
          | none => throw .wrongType

end Fxml.Live
