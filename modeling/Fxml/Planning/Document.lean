import Fxml.Graph.Basic
import Fxml.Planning.Element

/-! The plan of a whole document. Ids are registered first, so that references do not depend on
where an element stands; then the elements are planned, linked to the controller and ordered. -/

open Fxml.Planning

namespace Fxml.Planning

def tag? : Node → Option String
  | .object _ _ _ tag .. => some tag
  | .constant _ _ tag .. => some tag
  | _ => none

/-- The names that the generated module refers to: the first parts of imported packages, dotted tags
and the controller's type.
-/
def importedNames (document : Document) : List String :=
  document.imports.map (Naming.firstPart ·.name)
    ++ ((document.root.walk.filterMap tag?).filter (·.toList.contains '.')).map Naming.firstPart
    ++ document.controller.toList.map Naming.firstPart

structure Registration where
  diagnostics : Diagnostics
  namer : Namer
  vars : List (Nat × String) := []
  registry : Table Entry := []

/-- Registers the id of a node. It is its own variable name if that can be used. -/
def register (r : Registration) (node : Node) : Except Crash Registration :=
  let refuse (problem : Problem) : Except Crash Registration :=
    .ok { r with diagnostics := r.diagnostics.report problem node.pos }
  let accept (id var : String) (namer : Namer) : Except Crash Registration :=
    .ok { r with
      namer, vars := (node.order, var) :: r.vars, registry := r.registry.put id ⟨node, var⟩ }
  match node.id? with
  | none => .ok r
  | some id =>
    if id = Expr.controllerName then refuse (.reservedId id)
    else
      match r.registry.get? id with
      | some first => refuse (.duplicateId id first.node.pos)
      | none =>
        match r.namer.claim? id with
        | some namer => accept id id namer
        | none =>
          match r.namer.fresh? id with
          | some (var, namer) => accept id var namer
          | none => .error (.noName id)

def controllerType (types : TypeSource) (document : Document)
    : Except Problem (Option TypeDescriptor) :=
  match document.controller with
  | none => .ok none
  | some tag =>
    match types.resolveType tag document.imports with
    | .error ambiguous => .error (.ambiguousController tag ambiguous.candidates)
    | .ok found =>
      match found.bind types.describe with
      | some d => .ok (some d)
      | none => .error (.unknownController tag)

/-- Gives the object of an id to the controller's field of that name. -/
def injectField (controller : TypeDescriptor) (id : String) (entry : Entry) : Planning Unit := do
  match (← get).elements.get? entry.var, Controller.fieldType? controller id with
  | some e, some declared =>
    if ← isAssignable declared e.type then
      putElement ({ e with field := some id }.dependOn Plan.controllerNode)
      addLink ⟨entry.node.pos, .field, id, id⟩
    else report (.fieldMismatch controller.name id declared e.type) entry.node.pos
  | _, _ => return

def dependencyGraph (elements : Table Element) (hasController : Bool) : Graph :=
  let start : Graph := if hasController then Graph.addNode {} Plan.controllerNode 0 else {}
  let nodes := elements.foldl (fun g (var, e) => g.addNode var e.order) start
  elements.foldl (fun g (var, e) => e.dependencies.foldl (·.addEdge var ·) g) nodes

/-- The construction order of the elements. A cycle is reported at the element it starts with. -/
def orderElements : Planning (List String) := do
  let elements := (← get).elements
  let graph := dependencyGraph elements (← read).controller.isSome
  for cycle in graph.cycles do
    let members := cycle.filterMap elements.get?
    if let some first := members.head? then report (.cycle (members.map Element.label)) first.pos
  return graph.order.filter (· != Plan.controllerNode)

/-- The type whose module must be imported to name a type: the item type of a list, and none for a
map.
-/
def namedType? (type : String) : Option String :=
  match h : TypeName.listItem? type with
  | some item =>
    have := TypeName.listItem?_length h
    namedType? item
  | none => if (TypeName.mapTypes? type).isSome then none else some type
termination_by type.length

def moduleOf? (types : TypeSource) (type : String) : Option String :=
  match (types.describe type).map (·.module) with
  | some "builtins" | none => none
  | some module => some module

def typeModules (types : TypeSource) (controller : Option TypeDescriptor)
    (elements : Table Element) : Table String :=
  let named := controller.toList.map (·.name) ++ elements.values.flatMap Element.types
  Table.ofList ((named.filterMap namedType?).filterMap fun type =>
    (moduleOf? types type).map (type, ·))

def addModule (modules : List String) (module : String) : List String :=
  if modules.contains module then modules else modules ++ [module]

def positionLe (a b : Position) : Bool := a.line < b.line || (a.line == b.line && a.col ≤ b.col)

def assemble (module className : String) (root : Element) : Planning Plan := do
  let context ← read
  if let some controller := context.controller then
    for (id, entry) in context.registry do
      injectField controller id entry
  for id in context.document.exports do
    unless context.registry.contains id do report (.unknownExport id) context.document.root.pos
  let order ← orderElements
  let s ← get
  let moduleOf := typeModules context.types context.controller s.elements
  let included := s.elements.values.filterMap fun e => e.inclusion.map (·.module)
  return {
    path := context.document.path
    module, className
    rootVar := root.var
    rootType := root.type
    elements := s.elements
    order
    registry := (context.registry.filter fun (_, entry) => s.elements.contains entry.var).map
      fun (id, entry) => (id, entry.var)
    bindings := s.bindings.mergeSort fun a b => positionLe a.pos b.pos
    controller := context.controller.map fun d =>
      { type := d.name, hasInitialize := Controller.hasInitialize d, links := s.links }
    exports := context.document.exports
    modules := (moduleOf.values ++ included).foldl addModule []
    moduleOf }

/-- Plans a document from its root element; none when the root has no plan. -/
def planDocument (module className : String) : Planning (Option Plan) := do
  match ← planNode (← read).document.root with
  | none => return none
  | some root => return some (← assemble module className root)

end Fxml.Planning

namespace Fxml

structure PlanSettings where
  types : TypeSource
  resources : Option (Table String) := none
  loader : Option (String → Lookup (Except IncludeFault IncludeTarget)) := none
  reserved : List String := []

/-- Plans a document: its plan unless the root has none, and the reports, which follow those that
are there already.
-/
def Document.plan (document : Document) (settings : PlanSettings) (module className : String)
    (diagnostics : Diagnostics) : Lookup (Option Plan × Diagnostics) := do
  let namer := Namer.avoiding (settings.reserved ++ importedNames document)
  let start : Registration := { diagnostics, namer }
  let registered ← ExceptT.mk (pure (document.root.walk.foldlM register start))
  let (controller, diagnostics) :=
    match controllerType settings.types document with
    | .ok controller => (controller, registered.diagnostics)
    | .error problem =>
      (none, registered.diagnostics.report problem (document.controllerPos.getD document.root.pos))
  let context : Context :=
    { document, types := settings.types, resources := settings.resources
      loader := settings.loader, registry := registered.registry, controller }
  let state : State :=
    { diagnostics, namer := registered.namer, vars := registered.vars }
  let (plan, state) ← ((planDocument module className).run context).run state
  return (plan, state.diagnostics)

end Fxml
