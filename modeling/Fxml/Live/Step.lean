import Fxml.Scalar

/-! The functions that bound expressions combine their operands with. -/

namespace Fxml.Live

inductive Operator where
  | add
  | subtract
  | multiply
  | divide
  | modulo
  | negate
  | equal
  | notEqual
  | less
  | lessEqual
  | greater
  | greaterEqual
  | invert
  | both
  | either
  | makeList
  | makeMap
deriving DecidableEq

namespace Operator

def name : Operator → String
  | add => "add"
  | subtract => "subtract"
  | multiply => "multiply"
  | divide => "divide"
  | modulo => "modulo"
  | negate => "negate"
  | equal => "equal"
  | notEqual => "not_equal"
  | less => "less"
  | lessEqual => "less_equal"
  | greater => "greater"
  | greaterEqual => "greater_equal"
  | invert => "invert"
  | both => "both"
  | either => "either"
  | makeList => "make_list"
  | makeMap => "make_map"

def all : List Operator :=
  [add, subtract, multiply, divide, modulo, negate, equal, notEqual, less, lessEqual, greater,
    greaterEqual, invert, both, either, makeList, makeMap]

def ofName? (name : String) : Option Operator := all.find? (·.name == name)

end Operator

end Fxml.Live

/-! Scripts that drive live objects: written values, operands of bound expressions, and steps. -/

namespace Fxml.Live

inductive Term where
  | scalar (s : Scalar)
  /-- A scalar that is the same occurrence whenever the term is evaluated. -/
  | settled (s : Scalar) (occurrence : Nat)
  | list (items : List Term)
  | dict (entries : List (Term × Term))
  | bundle (entries : List (Term × Term))
  | var (name : String)
  | type (name : String)
  | member (type name : String)
  | listener (name : String)
  | attr (var name : String)
  | property (var name : String)
deriving Inhabited

inductive Operand where
  | term (t : Term)
  | constant (t : Term)
  | select (source : Operand) (name : String)
  | call (source : Operand) (name : String) (args : List Operand)
  | valueAt (source key : Operand)
  | combine (fn : Operator) (args : List Operand)
deriving Inhabited

inductive Handler where
  | named (name : String)
  | term (t : Term)
  | ignoreEvent (inner : Handler)
  | ignoreChange (inner : Handler)
  | asHandler (t : Term)
deriving Inhabited

inductive FunctionBody where
  | returns (t : Term)
  | reads (attr : String)
  | echoes
  | assigns (attr : String)

structure ClassDecl where
  name : String
  bases : List String
  /-- Properties with their defaults, and whether they are read-only. -/
  properties : List (String × Term × Bool)
  lists : List String
  events : List String
  attrs : List (String × Term)
  functions : List (String × FunctionBody)
  /-- The attribute that holds the text of an object made from a text. -/
  valueOf : Option String

/-- How the builders of a class build. Elements, included builders and the root are looked up when a
builder builds.
-/
structure BuilderForm where
  names : List (String × Term)
  includes : List (String × String)
  root : Term

structure BuilderDecl where
  name : String
  controllerType : Option String
  exports : List String
  location : String
  form : BuilderForm

inductive Change where
  | method (name : String) (args : List Term)
  | setItem (key value : Term)
  | setSlice (bounds : List Term) (value : Term)
  | deleteItem (key : Term)
  | deleteSlice (bounds : List Term)
  | addInPlace (value : Term)

structure BuildArguments where
  controller : Term
  root : Term
  resources : Term
  factory : Option String

inductive Step where
  | keep (name : String) (step : Step)
  | declareClass (decl : ClassDecl)
  | declareEnum (name : String) (members : List String)
  | declareBuilder (decl : BuilderDecl)
  | nameBuilderType (name : String)
  | declareListener (name : String) (reaction : List Step) (fails : Bool) (returns : Term)
    (takesNone : Bool)
  | new (type : String) (args : List Term)
  | getAttr (var attr : String)
  | setAttr (var attr : String) (value : Term)
  | classAttr (type attr : String)
  | evaluate (operand : Operand)
  | current (target : Term)
  | setProperty (target value : Term)
  | bind (target : Term) (source : Operand)
  | unbind (target : Term)
  | isBound (target : Term)
  | shown (target : Term)
  | listen (target : Term) (listener : Handler)
  | unlisten (target : Term) (listener : Handler)
  | handle (var slot : String) (handler : Handler)
  | fire (var slot : String) (event : Term)
  | newList (items : Option Term)
  | change (target : Term) (change : Change)
  | coerce (value target : Term)
  | apply (fn : Operator) (args : List Term)
  | read (object : Term) (name : String)
  | unwrap (value : Term)
  | copy (value : Term)
  | same (left right : Term)
  | requireRoot (root type : Term)
  | resourceText (resources : Term) (key : String)
  | newBuilder (type : String) (location : Option String)
  | builderState (builder : String)
  | selectController (builder : String) (controller : Term) (factory : Option String)
  | build (builder : String) (args : BuildArguments)
  | merge (builder sub : String) (name : String)
  | newLoader (builders : List (String × String))
  | register (loader location type : String)
  | locations (loader : String)
  | builderFor (loader location : String)
  | load (loader location : String) (args : BuildArguments)
deriving Inhabited

end Fxml.Live
