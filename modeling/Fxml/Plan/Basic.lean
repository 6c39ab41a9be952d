import Fxml.Expr.Basic
import Fxml.Table

/-! Construction plans: what a document's builder makes, in which order, and what it then does with
each object. Variable names are final. -/

namespace Fxml

inductive Source where
  | literal (pos : Position) (value : Scalar)
  | list (pos : Position) (items : List Source)
  | member (pos : Position) (type name : String)
  | constant (pos : Position) (type name : String)
  | parsed (pos : Position) (type text : String)
  | element (pos : Position) (var : String)
  /-- An expression that is evaluated once, and the type its value is converted to. -/
  | expr (pos : Position) (value : Value) (convertTo : Option String)
  /-- A key of the resources, and the type the text is converted to. -/
  | resource (pos : Position) (key : String) (convertTo : Option String)
  | location (pos : Position) (path : String)
  | method (pos : Position) (name : String) (arity : Nat)
  | handler (pos : Position) (source : Source)
  | absent (pos : Position)

namespace Source

def pos : Source → Position
  | literal p _ | list p _ | member p _ _ | constant p _ _ | parsed p _ _ | element p _
  | expr p _ _ | resource p _ _ | location p _ | method p _ _ | handler p _ | absent p => p

end Source

inductive StepKind where
  | set
  | append
  | extend
  | put
  | attach
  | handler
  | listener
  | listListener
  | other (name : String)
deriving DecidableEq

namespace StepKind

def name : StepKind → String
  | set => "set"
  | append => "append"
  | extend => "extend"
  | put => "put"
  | attach => "static"
  | handler => "handler"
  | listener => "listener"
  | listListener => "list_listener"
  | other name => name

def all : List StepKind := [set, append, extend, put, attach, handler, listener, listListener]

def ofName (name : String) : StepKind := (all.find? fun k => k.name == name).getD (other name)

end StepKind

/-- A step on a constructed object. An empty target means the object itself. -/
structure Step where
  pos : Position
  kind : StepKind
  target : String
  source : Source
  owner : Option String := none
  key : Option String := none

inductive Strategy where
  | construct
  | builder
  | factory
  | value
  | constant
  | text
  | copy
  | inclusion
  | root
  | other (name : String)
deriving DecidableEq

namespace Strategy

def name : Strategy → String
  | construct => "constructor"
  | builder => "builder"
  | factory => "factory"
  | value => "value"
  | constant => "constant"
  | text => "text"
  | copy => "copy"
  | inclusion => "include"
  | root => "root"
  | other name => name

def all : List Strategy :=
  [construct, builder, factory, value, constant, text, copy, inclusion, root]

def ofName (name : String) : Strategy := (all.find? fun s => s.name == name).getD (other name)

end Strategy

structure Inclusion where
  path : String
  module : String
  className : String
  scope : String
  builderVar : String
  controllerField : Option String := none
deriving DecidableEq

structure Element where
  var : String
  type : String
  strategy : Strategy
  pos : Position
  order : Nat
  id : Option String := none
  args : List (String × Source) := []
  builderType : Option String := none
  builderVar : Option String := none
  builderSteps : List Step := []
  ownerType : Option String := none
  member : Option String := none
  source : Option Source := none
  inclusion : Option Inclusion := none
  steps : List Step := []
  dependencies : List String := []
  setsId : Bool := false
  field : Option String := none
  attached : Bool := true

namespace Element

def label (e : Element) : String := e.id.getD e.var

def dependOn (e : Element) (key : String) : Element :=
  if e.dependencies.contains key then e
  else { e with dependencies := e.dependencies ++ [key] }

end Element

structure Binding where
  pos : Position
  var : String
  property : String
  value : Value

/-- What a part of the markup is linked to in the controller. -/
inductive LinkKind where
  | field | method
deriving DecidableEq

def LinkKind.name : LinkKind → String
  | .field => "field"
  | .method => "method"

/-- A part of the markup that is linked to a member of the controller. -/
structure Link where
  pos : Position
  kind : LinkKind
  name : String
  member : String
deriving DecidableEq

structure ControllerPlan where
  type : String
  hasInitialize : Bool := false
  links : List Link := []
deriving DecidableEq

structure Plan where
  path : String
  module : String
  className : String
  rootVar : String
  rootType : String
  elements : Table Element := []
  order : List String := []
  registry : Table String := []
  bindings : List Binding := []
  controller : Option ControllerPlan := none
  exports : List String := []
  modules : List String := []
  moduleOf : Table String := []

/-! What the sources of a plan reach: other elements and types. -/

/-- The node of the dependency graph that stands for the controller. -/
def Plan.controllerNode : String := "controller"

namespace Source

mutual

/-- The nodes that must exist before a source can be read. `varOf` gives the variable of an id. -/
def needs (varOf : String → Option String) : Source → List String
  | element _ var => [var]
  | list _ items => needsOfAll varOf items
  | expr _ value _ =>
    value.references.filterMap fun r =>
      if r.isController then some Plan.controllerNode else varOf r.name
  | method .. => [Plan.controllerNode]
  | handler _ source => needs varOf source
  | _ => []

def needsOfAll (varOf : String → Option String) : List Source → List String
  | [] => []
  | s :: rest => needs varOf s ++ needsOfAll varOf rest

end

mutual

def types : Source → List String
  | member _ type _ | constant _ type _ | parsed _ type _ => [type]
  | expr _ _ convertTo | resource _ _ convertTo => convertTo.toList
  | list _ items => typesOfAll items
  | handler _ source => types source
  | _ => []

def typesOfAll : List Source → List String
  | [] => []
  | s :: rest => types s ++ typesOfAll rest

end

end Source

namespace Element

/-- All sources of an element: arguments, its own source, and the steps of its builder and of
itself.
-/
def sources (e : Element) : List Source :=
  e.args.map Prod.snd ++ e.source.toList ++ (e.builderSteps ++ e.steps).map (·.source)

def types (e : Element) : List String :=
  let own := match e.strategy with
    | .construct | .text | .root => [e.type]
    | _ => []
  own ++ e.ownerType.toList ++ e.builderType.toList
    ++ (e.builderSteps ++ e.steps).filterMap (·.owner)
    ++ e.sources.flatMap Source.types

end Element

end Fxml
