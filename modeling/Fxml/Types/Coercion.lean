import Fxml.Literal
import Fxml.Plan.Basic
import Fxml.Types.Source

/-! Literal text as a value of a declared type. -/

open Fxml.TypeName

namespace Fxml.Coercion

inductive Error where
  | notInt (text : String)
  | notFloat (text : String)
  | notBool (text : String)
  | notLiteral (type : String)
  | unknownType (text type : String)
  | notMember (text type : String)
  | noConversion (text type : String)
deriving DecidableEq

def Error.message : Error → String
  | notInt text => "'" ++ text ++ "' is not a valid int"
  | notFloat text => "'" ++ text ++ "' is not a valid float"
  | notBool text => "'" ++ text ++ "' is not a valid bool (expected true or false)"
  | notLiteral type => "literal text cannot be converted to " ++ type
  | unknownType text type => "cannot convert '" ++ text ++ "' to unknown type " ++ type
  | notMember text type => "'" ++ text ++ "' is not a member of " ++ type
  | noConversion text type => "cannot convert '" ++ text ++ "' to " ++ type

/-- Text as a value of a type that the source describes: a member, a constant, text that the type
reads itself, or the text unchanged.
-/
def convertDescribed (types : TypeSource) (pos : Position) (type text : String)
    : Except Error Source :=
  match types.describe type with
  | none => .error (.unknownType text type)
  | some d =>
    if d.isEnum then
      match Literal.member? d.members text with
      | some member => .ok (.member pos type member)
      | none => .error (.notMember text type)
    else
      let name := Text.strip text
      if (d.constants.get? name).any (types.isAssignable type ·) then
        .ok (.constant pos type name)
      else if d.valueOf then .ok (.parsed pos type text)
      else if types.isAssignable type "str" then .ok (.literal pos (.text text))
      else .error (.noConversion text type)

/-- Text as a value of a type; the text of a list is cut at commas. -/
def convert (types : TypeSource) (pos : Position) (type text : String) : Except Error Source :=
  if type = "str" || type = "object" then .ok (.literal pos (.text text))
  else if type = "int" then
    match Literal.readInt text with
    | .ok n => .ok (.literal pos (.int n))
    | .error _ => .error (.notInt text)
  else if type = "float" then
    match Literal.readFloat text with
    | .ok x => .ok (.literal pos (.float x))
    | .error _ => .error (.notFloat text)
  else if type = "bool" then
    match Literal.readBool text with
    | .ok b => .ok (.literal pos (.bool b))
    | .error _ => .error (.notBool text)
  else
    match h : listItem? type with
    | some item =>
      have := listItem?_length h
      do return .list pos (← (Literal.items text).mapM (convert types pos item))
    | none =>
      if (mapTypes? type).isSome then .error (.notLiteral type)
      else convertDescribed types pos type text
termination_by type.length

/-- Whether any value can be converted to a type while the builder runs. -/
def isConvertible (types : TypeSource) (type : String) : Bool :=
  if ["str", "int", "float", "bool"].contains type then true
  else if type = "object" || (listItem? type).isSome
      || (mapTypes? type).isSome then false
  else (types.describe type).any fun d => d.isEnum || d.valueOf

end Fxml.Coercion
