import Fxml.Live.World

/-! What kind of thing a value is: its type, what the type provides, and what the value holds. -/

namespace Fxml.Live

/-- What a basic type itself provides under a name besides its operations. -/
def BasicType.constant? (t : BasicType) (name : String) : Option Value :=
  match t with
  | .builder =>
    if name == "CONTROLLER_TYPE" then some .null
    else if name == "EXPORTS" then some (.object emptyTuple)
    else if name == "LOCATION" then some .emptyText
    else none
  | .list | .dict | .slice | .view .keys | .view .items =>
    if name == "__hash__" then some .null else none
  | .null => if name == "__doc__" then some .null else none
  | _ => none

namespace World

def scalarType : Scalar → BasicType
  | .null => .null
  | .bool _ => .boolean
  | .int _ => .integer
  | .float _ => .number
  | .text _ => .text

def isEnumeration (w : World) : TypeRef → Bool
  | .basic t => t == .enumeration
  | .made cls => ((w.class? cls).bind (·.enumerates)).isSome

def builtinType (b : Builtin) : BasicType :=
  match b.kind with
  | .slot => .slot
  | .method => .methodDescriptor
  | .function => .function
  | .classMethod => .builtin
  | .staticMethod => if b.owner == .enumeration then .function else .builtin
  | .field => .fieldDescriptor
  | .memberField => .memberDescriptor

def attachedType : Value → BasicType
  | .builtin b => match b.kind with
    | .slot => .boundSlot
    | .function => .method
    | _ => .builtin
  | _ => .method

def typeOf (w : World) : Value → TypeRef
  | .scalar s _ => .basic (scalarType s)
  | .notImplemented => .basic .notImplemented
  | .type t => .basic (if w.isEnumeration t then .enumType else .type)
  | .builtin b => .basic (builtinType b)
  | .method _ function _ => .basic (attachedType function)
  | .object id => ((w.objects[id]?).map (·.type)).getD (.basic .object)

/-- A type and those that it refines, in the order in which names are looked up. -/
def order (w : World) : TypeRef → List TypeRef
  | .basic t => t.order.map .basic
  | .made cls => ((w.class? cls).map (·.order)).getD []

def typeRefName (w : World) : TypeRef → String
  | .basic t => t.name
  | .made cls => ((w.class? cls).map (·.name)).getD ""

def typeName (w : World) (v : Value) : String := w.typeRefName (w.typeOf v)

def refines (w : World) (t u : TypeRef) : Bool := (w.order t).contains u

def isOf (w : World) (v : Value) (t : BasicType) : Bool := w.refines (w.typeOf v) (.basic t)

def ownMember? (w : World) (t : TypeRef) (name : String) : Option Value :=
  match t with
  | .basic b => (b.constant? name).or ((b.provision? name).map .builtin)
  | .made cls => (w.class? cls).bind (·.members.get? name)

def declaration? (w : World) (t : TypeRef) (name : String) : Option (TypeRef × Value) :=
  (w.order t).findSome? fun u => (w.ownMember? u name).map (u, ·)

def member? (w : World) (t : TypeRef) (name : String) : Option Value :=
  (w.declaration? t name).map (·.2)

/-- What a class declares for its values under a name in place of what a basic type provides. -/
def override? (w : World) (v : Value) (name : String) : Option Value :=
  match v with
  | .object _ => match w.declaration? (w.typeOf v) name with
    | some (.made _, m) => some m
    | _ => none
  | _ => none

def supports (w : World) (v : Value) (name : String) : Bool :=
  (w.member? (w.typeOf v) name).isSome

/-- The type whose values hold what the values of a type hold, if there is one. -/
def coreOf? (w : World) (t : TypeRef) : Option BasicType :=
  (w.order t).findSome? fun
    | .basic b => b.core?
    | .made _ => none

/-- The scalar that a value is, also as an object of a class. -/
def scalar? (w : World) (v : Value) : Option Scalar :=
  match v with
  | .scalar s _ => some s
  | _ => match w.body? v with
    | some (.scalar s) => some s
    | _ => none

def text? (w : World) (v : Value) : Option String :=
  match w.scalar? v with
  | some (.text s) => some s
  | _ => none

/-- The number that a value is; a truth value counts as one or zero. -/
def amount? (w : World) (v : Value) : Option Number.Amount := (w.scalar? v).bind amountOf?

def whole? (w : World) (v : Value) : Option Int := (w.scalar? v).bind wholeOf?

def items? (w : World) (v : Value) : Option (List Value) :=
  match w.body? v with
  | some (.list items) => some items
  | _ => none

def tupleItems? (w : World) (v : Value) : Option (List Value) :=
  match w.body? v with
  | some (.tuple items) => some items
  | _ => none

def entries? (w : World) (v : Value) : Option (List Entry) :=
  match w.body? v with
  | some (.dict entries) => some entries
  | _ => none

def viewed? (w : World) (v : Value) : Option (ViewKind × List Entry) :=
  match w.body? v with
  | some (.view kind dict) => (w.entries? (.object dict)).map (kind, ·)
  | _ => none

def enumMembers? (w : World) : Value → Option (Table Value)
  | .type (.made cls) => (w.class? cls).bind (·.enumerates)
  | _ => none

def isCallable (w : World) (v : Value) : Bool :=
  match v with
  | .type _ | .method _ _ _ => true
  | .builtin b => match b.kind with
    | .field | .memberField => false
    | _ => true
  | _ => w.supports v "__call__"

/-- Whether a value has a current value of its own that can change. -/
def isObservable (w : World) (v : Value) : Bool :=
  match w.body? v with
  | some (.property _) | some (.constant _) | some (.node _) => true
  | _ => false

end World

end Fxml.Live
