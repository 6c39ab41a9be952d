import Fxml.Live.Conversion
import Fxml.Live.Subscript

/-! Conversion of values to types. Texts are converted as literals are. -/

namespace Fxml.Live

def liftLiteral {α : Type} (r : Except Literal.Error α) : Action α :=
  match r with
  | .ok a => pure a
  | .error e => throw (.literal e)

/-- The value of a floating-point literal. Each of the special numbers is always the same one. -/
def createLiteralFloat (x : Float) : Action Value :=
  if x.isNaN then pure (.scalar (.float x) literalNotANumber)
  else if x.isInf then
    pure (.scalar (.float x) (if x < 0.0 then literalNegativeInfinity else literalInfinity))
  else createFloat x

/-- The text that a value is converted to. Truth values are written as literals are. -/
def toText (v : Value) : Action Value :=
  match v with
  | .scalar (.bool b) _ => pure (nameValue (if b then "true" else "false"))
  | _ => displayValue v

/-- A text as literals are read from it. A text of a class may say itself what it is without the blanks
around it; `e` is the failure when that is no text.
-/
def literalText (v : Value) (s : String) (e : Error) : Action String := do
  match ← callOverride? v "strip" [] with
  | some result => match (← get).text? result with
    | some stripped => pure stripped
    | none => throw e
  | none => pure s

def coerceBasic (v : Value) (t : TypeRef) : Action (Option Value) := do
  match t, (← get).text? v with
  | .basic .text, _ => some <$> toText v
  | .basic .integer, some s => do
    some <$> createInt (← liftLiteral (Literal.readInt (← literalText v s .wrongType)))
  | .basic .integer, none => some <$> toWhole v
  | .basic .number, some s => do
    some <$> createLiteralFloat (← liftLiteral (Literal.readFloat (← literalText v s .wrongType)))
  | .basic .number, none => some <$> toReal v
  | .basic .boolean, some s => do
    return some (.bool (← liftLiteral (Literal.readBool (← literalText v s .noAttribute))))
  | .basic .boolean, none => do return some (.bool (← truth v))
  | _, _ => pure none

def targetName (target : Value) : Action String := do
  let written ← display target
  match ← getAttribute? target "__name__" with
  | some name => requireText name
  | none => pure written

/-- Whether a conversion leaves a value as it is. A truth value is of the type of whole numbers, but is
converted all the same.
-/
def World.staysAs (w : World) (v target : Value) : Bool :=
  match target with
  | .type t => w.refines (w.typeOf v) t && !(t == .basic .integer && w.isOf v .boolean)
  | _ => false

def coerceThrough (v target : Value) : Action Value := do
  let valueOf := (← getAttribute? target "value_of").getD .null
  let w ← get
  if w.isCallable valueOf then call valueOf [v]
  else throw (.notConvertible (w.typeName v) (← targetName target))

/-- Converts a value to a type: to one of the basic types, to a member of an enumeration, or through
the function that the type has for it.
-/
def coerce (v target : Value) : Action Value := do
  let w ← get
  if v.isNull || target.isNull || w.staysAs v target then return v
  let basic ← match target with
    | .type t => coerceBasic v t
    | _ => pure none
  match basic, w.enumMembers? target, w.text? v with
  | some found, _, _ => pure found
  | none, some members, some s =>
    match Literal.member? members.keys (← literalText v s .noAttribute) with
    | some name => return (members.get? name).getD .null
    | none => throw (.notAMember (← shown v) (← targetName target))
  | _, _, _ => coerceThrough v target

end Fxml.Live
