import Fxml.Naming.Style
import Fxml.Planning.Problem

/-! The working state while a document is planned. -/

namespace Fxml

/-- What the including document needs to know about an included one. -/
structure IncludeTarget where
  path : String
  module : String
  className : String
  rootType : String
  controllerType : Option String := none
  exports : List String := []
deriving DecidableEq

abbrev IncludeCache := Table (Except IncludeFault IncludeTarget)

inductive Crash where
  | loader (message : String)
  | noName (hint : String)
  | generator
  | halted (reason : Halt)
deriving DecidableEq

/-- Work that looks up included documents. What was looked up before a crash stays known. -/
abbrev Lookup := ExceptT Crash (StateM IncludeCache)

structure Entry where
  node : Node
  var : String

namespace Planning

structure Context where
  document : Document
  types : TypeSource
  resources : Option (Table String) := none
  loader : Option (String → Lookup (Except IncludeFault IncludeTarget)) := none
  registry : Table Entry := []
  controller : Option TypeDescriptor := none

/-- What grows while a document is planned. Nodes are told apart by their rank. -/
structure State where
  diagnostics : Diagnostics
  namer : Namer
  vars : List (Nat × String) := []
  /-- The types of nodes; one that is being found out has none. -/
  types : List (Nat × Option String) := []
  includes : List (Nat × Option IncludeTarget) := []
  exported : Table Node := []
  elements : Table Element := []
  bindings : List Binding := []
  links : List Link := []

end Planning

abbrev Planning := ReaderT Planning.Context (StateT Planning.State Lookup)

namespace Planning

def report (problem : Problem) (pos : Position) : Planning Unit :=
  modify fun s => { s with diagnostics := s.diagnostics.report problem pos }

def entry? (id : String) : Planning (Option Entry) := return (← read).registry.get? id

def describe (type : String) : Planning (Option TypeDescriptor) :=
  return (← read).types.describe type

def isAssignable (target type : String) : Planning Bool :=
  return (← read).types.isAssignable target type

/-- Warns when a value of a known type cannot be stored. -/
def checkAssignable (target : String) (type : Option String) (pos : Position) : Planning Unit := do
  if let some type := type then
    unless ← isAssignable target type do report (.notAssignable type target) pos

def freshName (hint : String) : Planning String := do
  match (← get).namer.fresh? hint with
  | some (name, namer) =>
    modify fun s => { s with namer }
    return name
  | none => throw (.noName hint)

/-- A name as it is if it can be used, else a new one made from it. -/
def claimName (name : String) : Planning String := do
  match (← get).namer.claim? name with
  | some namer =>
    modify fun s => { s with namer }
    return name
  | none => freshName name

def varOf (node : Node) (hint : String) : Planning String := do
  match (← get).vars.lookup node.order with
  | some var => return var
  | none =>
    let var ← freshName hint
    modify fun s => { s with vars := (node.order, var) :: s.vars }
    return var

/-- Puts an element into the plan, in the place of an earlier one of its variable. -/
def putElement (e : Element) : Planning Unit :=
  modify fun s => { s with elements := s.elements.put e.var e }

def dropElement (var : String) : Planning Unit :=
  modify fun s => { s with elements := s.elements.erase var }

def newElement (node : Node) (type : String) (strategy : Strategy) (hint : String)
    : Planning Element := do
  let var ← varOf node hint
  let e : Element := { var, type, strategy, pos := node.pos, order := node.order, id := node.id? }
  putElement e
  return e

def addLink (link : Link) : Planning Unit := modify fun s => { s with links := s.links ++ [link] }

end Planning

end Fxml
