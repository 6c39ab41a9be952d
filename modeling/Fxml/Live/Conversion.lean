import Fxml.Live.Display

/-! Values as numbers. A class can say which number its values stand for. -/

namespace Fxml.Live

open Number (Amount)

def createAmount : Amount → Action Value
  | .whole n => createInt n
  | .real x => createFloat x

def createResult (r : Except Number.ArithmeticError Amount) : Action Value :=
  match r with
  | .ok a => createAmount a
  | .error e => throw (.arithmetic e)

def truncated (x : Float) : Action Int :=
  if x.isNaN then throw .wrongValue
  else if x.isInf then throw (.arithmetic .tooLarge)
  else pure (Amount.truncate x)

def nearestReal (a : Amount) : Action Float :=
  match a.toReal with
  | .ok x => pure x
  | .error e => throw (.arithmetic e)

def requireWhole (result : Value) : Action Int := do
  match (← get).whole? result with
  | some n => pure n
  | none => throw .wrongType

/-- The whole number that a value stands for; `none` for texts and what stands for no number. -/
def wholeNumberOf? (v : Value) : Action (Option Int) := do
  match ← callOverride? v "__int__" [] with
  | some result => some <$> requireWhole result
  | none => match (← get).amount? v with
    | some (.whole n) => return some n
    | some (.real x) => some <$> truncated x
    | none => match ← callOverride? v "__index__" [] with
      | some result => some <$> requireWhole result
      | none => match ← callOverride? v "__trunc__" [] with
        | some result => some <$> indexOf result
        | none => return none

/-- The whole number that a value is converted to; a text is read. -/
def toWhole (v : Value) : Action Value := do
  match v with
  | .scalar (.int _) _ => pure v
  | _ => match ← wholeNumberOf? v with
    | some n => createInt n
    | none => match (← get).text? v with
      | some s => match Literal.wholeNumber? 10 s.toList with
        | some n => createInt n
        | none => throw .wrongValue
      | none => throw .wrongType

/-- The floating-point number that a value stands for; `none` for texts and what stands for no
number.
-/
def realNumberOf? (v : Value) : Action (Option Float) := do
  match ← callOverride? v "__float__" [] with
  | some result => match (← get).scalar? result with
    | some (.float x) => return some x
    | _ => throw .wrongType
  | none => match (← get).amount? v with
    | some a => some <$> nearestReal a
    | none => match ← callOverride? v "__index__" [] with
      | some result => do some <$> nearestReal (.whole (← requireWhole result))
      | none => return none

def requireReal (v : Value) : Action Float := do
  match ← realNumberOf? v with
  | some x => pure x
  | none => throw .wrongType

/-- The floating-point number that a value is converted to; a text is read. -/
def toReal (v : Value) : Action Value := do
  match v with
  | .scalar (.float _) _ => pure v
  | _ => match ← realNumberOf? v with
    | some x => createFloat x
    | none => match (← get).text? v with
      | some s => match Literal.floatNumber? s.toList with
        | some x => createFloat x
        | none => throw .wrongValue
      | none => throw .wrongType

def World.isNumeric (w : World) (v : Value) : Bool :=
  (w.amount? v).isSome || (w.override? v "__int__").isSome || (w.override? v "__float__").isSome
    || (w.override? v "__index__").isSome

end Fxml.Live
