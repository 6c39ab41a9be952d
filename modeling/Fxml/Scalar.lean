import Fxml.Number.Shortest
import Fxml.Text.Quoted

/-! Scalar values: what literals in markup denote. -/

namespace Fxml

inductive Scalar where
  | null
  | bool (b : Bool)
  | int (n : Int)
  | float (x : Float)
  | text (s : String)
deriving BEq

namespace Scalar

def negate? : Scalar → Option Scalar
  | int n => some (.int (-n))
  | float x => some (.float (-x))
  | _ => none

def floatSource (x : Float) : String :=
  if x.isNaN then "float(\"nan\")"
  else if x.isInf then if x < 0.0 then "float(\"-inf\")" else "float(\"inf\")"
  else Number.floatText x

/-- The literal of a scalar in generated code. -/
def spelling : Scalar → String
  | null => "None"
  | bool true => "True"
  | bool false => "False"
  | int n => toString n
  | float x => floatSource x
  | text s => Text.literal s

/-- Whether a scalar is a number with more digits than are written. -/
def isLong : Scalar → Bool
  | int n => Text.digitLimit < (Nat.toDigits 10 n.natAbs).length
  | _ => false

end Scalar

end Fxml
