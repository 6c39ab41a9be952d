import Fxml.Types.Source

/-! What a controller's type offers to the markup: fields, handler methods and the hook that runs
last. -/

namespace Fxml.Controller

inductive Error where
  | noMethod (type method : String)
  | ambiguousHandler (type method : String) (count : Nat)
  | tooManyArguments (type method : String)
  | ambiguousListener (type method : String) (count : Nat)
  | noListener (type method : String)
deriving DecidableEq

namespace Error

def kind : Error → Kind
  | ambiguousHandler .. | ambiguousListener .. => .ambiguousControllerBinding
  | _ => .unknownReference

def message : Error → String
  | noMethod type method => "controller " ++ type ++ " has no method '" ++ method ++ "'"
  | ambiguousHandler type method count =>
    "handler '#" ++ method ++ "' matches " ++ toString count ++ " methods of " ++ type
  | tooManyArguments type method =>
    "method '" ++ method ++ "' of " ++ type ++ " takes too many arguments for a handler"
  | ambiguousListener type method count =>
    "listener '#" ++ method ++ "' matches " ++ toString count ++ " methods of " ++ type
  | noListener type method =>
    "method '" ++ method ++ "' of " ++ type ++ " cannot be used as a change listener"

end Error

def fieldType? (d : TypeDescriptor) (name : String) : Option String :=
  match d.properties.get? name with
  | some p => if p.settable then some p.type else none
  | none => none

def hasInitialize (d : TypeDescriptor) : Bool :=
  ((d.methods.get? "initialize").getD []).any (·.accepts 0)

def signatures (d : TypeDescriptor) (name : String) : Except Error (List Signature) :=
  match d.methods.get? name with
  | none | some [] => .error (.noMethod d.name name)
  | some found => .ok found

/-- The overloads whose parameter accepts an event; those of exactly its type if there are any. All
overloads when none accepts it.
-/
def narrow (types : TypeSource) (eventType : String) (overloads : List Signature)
    : List Signature :=
  let firstType (s : Signature) : Option String := s.params.head?.map (·.type)
  let accepting := overloads.filter fun s => (firstType s).any (types.isAssignable · eventType)
  let exact := accepting.filter fun s => firstType s = some eventType
  if !exact.isEmpty then exact
  else if !accepting.isEmpty then accepting
  else overloads

/-- How many arguments the method linked to an event slot takes: the event, or none. -/
def handlerArity (types : TypeSource) (d : TypeDescriptor) (name eventType : String)
    : Except Error Nat := do
  let found ← signatures d name
  let withEvent := found.filter (·.accepts 1)
  let withEvent := if withEvent.length > 1 then narrow types eventType withEvent else withEvent
  match withEvent with
  | [_] => return 1
  | [] =>
    match found.filter (·.accepts 0) with
    | [_] => return 0
    | [] => throw (.tooManyArguments d.name name)
    | plain => throw (.ambiguousHandler d.name name plain.length)
  | several => throw (.ambiguousHandler d.name name several.length)

/-- How many arguments a change listener takes: the change of a list, the property with its old and
new value, or none.
-/
def listenerArity (d : TypeDescriptor) (name : String) (listChange : Bool) : Except Error Nat := do
  let found ← signatures d name
  let arity := if listChange then 1 else 3
  match found.filter (·.accepts arity) with
  | [_] => return arity
  | [] =>
    match found.filter (·.accepts 0) with
    | [_] => return 0
    | [] => throw (.noListener d.name name)
    | plain => throw (.ambiguousListener d.name name plain.length)
  | several => throw (.ambiguousListener d.name name several.length)

end Fxml.Controller
