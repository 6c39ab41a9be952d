import Fxml.Literal
import Fxml.Live.Step
import Fxml.Live.Type
import Fxml.Number.Arithmetic
import Fxml.Resource

/-! Values of live objects: scalars, types, functions, and references to objects that have an
identity of their own.
-/

namespace Fxml.Live

open Number (Amount)

abbrev ObjectId : Type := Nat

abbrev ClassId : Type := Nat

inductive TypeRef where
  | basic (t : BasicType)
  | made (cls : ClassId)
deriving DecidableEq

structure Builtin where
  owner : BasicType
  name : String
deriving DecidableEq

def Builtin.kind (b : Builtin) : ProvisionKind := (b.owner.provisions.kind? b.name).getD .method

def BasicType.provision? (t : BasicType) (name : String) : Option Builtin :=
  (t.provisions.kind? name).map fun _ => ⟨t, name⟩

/-- A value. Two scalars, and two attached functions, are one and the same when they are one
occurrence; scalars of which there is only one have the occurrence zero.
-/
inductive Value where
  | scalar (s : Scalar) (occurrence : Nat)
  | notImplemented
  | type (t : TypeRef)
  | builtin (b : Builtin)
  | method (self function : Value) (occurrence : Nat)
  | object (id : ObjectId)
deriving BEq

namespace Value

def null : Value := .scalar .null 0

def bool (b : Bool) : Value := .scalar (.bool b) 0

def small (n : Int) : Value := .scalar (.int n) 0

def emptyText : Value := .scalar (.text "") 0

def basicType (t : BasicType) : Value := .type (.basic t)

def isNull : Value → Bool
  | scalar .null _ => true
  | _ => false

def isNotImplemented : Value → Bool
  | notImplemented => true
  | _ => false

def identical : Value → Value → Bool
  | scalar s o, scalar t p => o == p && (o != 0 || s == t)
  | notImplemented, notImplemented => true
  | type t, type u => t == u
  | builtin b, builtin c => b == c
  | method s f o, method t g p => o == p && (o != 0 || (s.identical t && f.identical g))
  | object i, object j => i == j
  | _, _ => false

end Value

/-- Whether there is only one scalar like this: nothing, truth values, small whole numbers and texts
of at most one character of a byte.
-/
def isSingle : Scalar → Bool
  | .null | .bool _ => true
  | .int n => -5 ≤ n && n ≤ 256
  | .float _ => false
  | .text s => match s.toList with
    | [] => true
    | [c] => c.toNat < 256
    | _ => false

/-- The number that a scalar is; a truth value counts as one or zero. -/
def amountOf? : Scalar → Option Amount
  | .bool b => some (.whole (if b then 1 else 0))
  | .int n => some (.whole n)
  | .float x => some (.real x)
  | _ => none

def wholeOf? : Scalar → Option Int
  | .bool b => some (if b then 1 else 0)
  | .int n => some n
  | _ => none

/-! Why an operation on live objects fails. -/

inductive Error where
  /-- A value of a type that the operation does not take, or a wrong number of arguments. -/
  | wrongType
  /-- A value of the right type that the operation does not take. -/
  | wrongValue
  | noAttribute
  | noIndex
  | noKey
  | arithmetic (e : Number.ArithmeticError)
  | tooMuch
  | notEncodable
  | notDecodable
  | unknownEncoding
  | noFile
  /-- Nothing is left to go through. -/
  | exhausted
  /-- A table grew while it was being read. -/
  | tableChanged
  /-- A member of a class failed when it was told its name. -/
  | namingFailed
  /-- An operation that is left to the types that refine the one it belongs to. -/
  | leftOpen
  | listenerFailed
  | tooDeep
  | boundProperty (name : String)
  | readOnlyProperty (name : String)
  | readOnlyList (name : String)
  | uncallableHandler (slot : String)
  | noProperty (type name : String)
  | notAHandler (type : String)
  | literal (e : Literal.Error)
  | notAMember (shown type : String)
  | notConvertible (source target : String)
  | resource (e : Resource.Error)
  | noRoot
  | wrongRoot (expected found : String)
  | noBuilder (shown : String)

namespace Error

/-- What is said about a failure; failures of basic operations say nothing. -/
def message? : Error → Option String
  | .boundProperty name => some ("a bound value cannot be set: " ++ name)
  | .readOnlyProperty name => some ("read-only property: " ++ name)
  | .readOnlyList name => some ("read-only list property: " ++ name)
  | .uncallableHandler slot => some (slot ++ " handler must be callable")
  | .noProperty type name => some (type ++ " has no observable property " ++ Text.shown name)
  | .notAHandler type => some (type ++ " is not an event handler")
  | .literal e => some e.message
  | .notAMember shown type => some (shown ++ " is not a member of " ++ type)
  | .notConvertible source target => some ("cannot coerce " ++ source ++ " to " ++ target)
  | .resource e => some e.message
  | .noRoot => some "root has not been set; pass root= to build()"
  | .wrongRoot expected found => some ("root must be a " ++ expected ++ ", got " ++ found)
  | .noBuilder shown => some ("no compiled builder for " ++ shown)
  | _ => none

def isOfAttribute : Error → Bool
  | .noAttribute | .readOnlyProperty _ | .readOnlyList _ | .noProperty _ _ => true
  | _ => false

def isOfKey : Error → Bool
  | .noKey | .resource _ => true
  | _ => false

def isOfLookup : Error → Bool
  | .noKey | .resource _ | .noIndex | .unknownEncoding | .noBuilder _ => true
  | _ => false

def isOfType : Error → Bool
  | .wrongType | .uncallableHandler _ | .notAHandler _ | .notConvertible _ _ | .wrongRoot _ _ => true
  | _ => false

end Error

/-! The world of live objects: classes, objects, and what a script keeps in variables. A failing
operation keeps what it did to the world before it failed.
-/

/-- The code by which a dictionary finds a key: keys that are equal have the same code. -/
inductive Code where
  | null
  | number (n : Int)
  | text (s : String)
  | type (t : TypeRef)
  | builtin (b : Builtin)
  | occurrence (n : Nat)
  | object (id : ObjectId)
  | several (codes : List Code)

namespace Code

mutual

def same : Code → Code → Bool
  | null, null => true
  | number m, number n => m == n
  | text s, text t => s == t
  | type t, type u => t == u
  | builtin b, builtin c => b == c
  | occurrence m, occurrence n => m == n
  | object i, object j => i == j
  | several cs, several ds => sameAll cs ds
  | _, _ => false

def sameAll : List Code → List Code → Bool
  | [], [] => true
  | c :: cs, d :: ds => same c d && sameAll cs ds
  | _, _ => false

end

instance : BEq Code := ⟨same⟩

end Code

structure Entry where
  code : Code
  key : Value
  value : Value

/-- A class. Names are looked up along its order, which begins with the class itself. -/
structure Class where
  name : String
  bases : List TypeRef
  order : List TypeRef
  members : Table Value
  enumerates : Option (Table Value)

structure Listener where
  name : String
  reaction : List Step
  fails : Bool
  returns : Term
  takesNone : Bool

inductive Function where
  | declared (name : String) (body : FunctionBody)
  /-- Makes an object from a text and keeps the text in an attribute. -/
  | valueOf (cls : ClassId) (attr : String)
  | listener (l : Listener)
  /-- Calls the inner value without arguments; the flag asks for exactly one. -/
  | adapter (inner : Value) (takesOne : Bool)
  | build (form : BuilderForm)
  | combines (fn : Operator)

/-- A property of one object. While it is bound it follows its source. -/
structure Property where
  owner : Value
  name : Value
  value : Value
  source : Value

/-- What a node of a bound expression computes from its operands. -/
inductive NodeKind where
  | selection (name : String)
  | invocation (name : String)
  | valueAt
  | combination (fn : Operator)
deriving DecidableEq

/-- A node of a bound expression. It has no value until it was computed once, and it may watch a
property or a list besides its operands.
-/
structure Node where
  kind : NodeKind
  operands : List Value
  value : Option Value
  watched : Option ObjectId

inductive Body where
  | plain
  | scalar (s : Scalar)
  | bytes (data : List UInt8)
  | list (items : List Value)
  | tuple (items : List Value)
  | dict (entries : List Entry)
  | view (kind : ViewKind) (of : ObjectId)
  /-- What is left to go through of what was there when the iterator was made. -/
  | iterator (rest : List Value)
  | slice (start stop step : Value)
  | parameterized (type : TypeRef) (args : List Value)
  | function (f : Function)
  | staticFunction (inner : Value)
  | classFunction (inner : Value)
  | property (p : Property)
  | constant (value : Value)
  | node (n : Node)

/-- An object. One that can be observed has a list of its listeners. -/
structure Object where
  type : TypeRef
  body : Body
  attrs : Table Value
  listeners : Option ObjectId

inductive Shown where
  | scalar (s : Scalar)
  | var (name : String)
  | member (type : String) (name : Shown)
  | list (items : List Shown)
  | observableList (items : List Shown)
  | dict (entries : List (Shown × Shown))
  | property (name value : Shown)
  | observable (kind : String) (value : Shown)
  | event (name source : Shown) (text : String)
  | listChange (added removed source : Shown)
  | type (name : String)
  | callable
  | new (type : String)

structure World where
  classes : Array Class
  objects : Array Object
  occurrences : Nat
  held : Table Value
  types : Table TypeRef
  listeners : Table ObjectId
  inWriting : List ObjectId
  /-- The calls of listeners and class functions, the latest first. -/
  log : List (String × List Shown)

def emptyTuple : ObjectId := 0

/-- The occurrence of the number that equals none, as a literal denotes it. -/
def literalNotANumber : Nat := 1

def literalInfinity : Nat := 2

def literalNegativeInfinity : Nat := 3

def World.initial : World where
  classes := #[]
  objects := #[⟨.basic .tuple, .tuple [], [], none⟩]
  occurrences := 4
  held := []
  types := [.text, .integer, .number, .boolean, .object, .list, .dict].map fun t =>
    (t.name, .basic t)
  listeners := []
  inWriting := []
  log := []

abbrev Effect : Type → Type := ExceptT Error (StateM World)

structure Caller where
  run : Value → List Value → Effect Value

abbrev Action : Type → Type := ReaderT Caller Effect

def call (f : Value) (args : List Value) : Action Value := fun caller => caller.run f args

namespace World

def object? (w : World) : Value → Option Object
  | .object id => w.objects[id]?
  | _ => none

def body? (w : World) (v : Value) : Option Body := (w.object? v).map (·.body)

def class? (w : World) (cls : ClassId) : Option Class := w.classes[cls]?

end World

def create (o : Object) : Action ObjectId :=
  modifyGet fun w => (w.objects.size, { w with objects := w.objects.push o })

def createBody (t : BasicType) (body : Body) : Action Value := do
  return .object (← create ⟨.basic t, body, [], none⟩)

def createList (items : List Value) : Action Value := createBody .list (.list items)

def createTuple (items : List Value) : Action Value :=
  if items.isEmpty then pure (.object emptyTuple) else createBody .tuple (.tuple items)

def createDict (entries : List Entry) : Action Value := createBody .dict (.dict entries)

def createFunction (f : Function) : Action Value := createBody .function (.function f)

def createRecord (t : BasicType) (attrs : Table Value) : Action Value := do
  return .object (← create ⟨.basic t, .plain, attrs, none⟩)

def setObject (id : ObjectId) (o : Object) : Action Unit :=
  modify fun w => { w with objects := w.objects.setIfInBounds id o }

def setBody (id : ObjectId) (body : Body) : Action Unit :=
  modify fun w => { w with objects := w.objects.modify id fun o => { o with body := body } }

def setOwn (id : ObjectId) (name : String) (value : Value) : Action Unit :=
  modify fun w =>
    { w with objects := w.objects.modify id fun o => { o with attrs := o.attrs.put name value } }

def newOccurrence : Action Nat :=
  modifyGet fun w => (w.occurrences, { w with occurrences := w.occurrences + 1 })

def createScalar (s : Scalar) : Action Value := do
  if isSingle s then return .scalar s 0 else return .scalar s (← newOccurrence)

def createText (s : String) : Action Value := createScalar (.text s)

def createChars (cs : List Char) : Action Value := createText (String.ofList cs)

def createInt (n : Int) : Action Value := createScalar (.int n)

def createFloat (x : Float) : Action Value := createScalar (.float x)

def attach (self function : Value) : Action Value := do
  return .method self function (← newOccurrence)

def liftResult {α : Type} (r : Except Error α) : Action α :=
  match r with
  | .ok a => pure a
  | .error e => throw e

end Fxml.Live
