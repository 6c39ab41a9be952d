import Fxml.Planning.Typing

/-! An element under way, and the values that are put into it. -/

namespace Fxml.Planning

structure Draft where
  element : Element
  descriptor : TypeDescriptor
  steps : List Step := []
  handlers : List Step := []
  /-- Values that only a constructor or builder can take, with the attributes they come from. -/
  pending : Table (Source × Option Position) := []
  text : Option Value := none

/-- Where a value stands: its place for reports, and whether it is an attribute. -/
structure Site where
  pos : Position
  isAttribute : Bool := false
deriving DecidableEq

namespace Draft

def addStep (d : Draft) (step : Step) : Draft := { d with steps := d.steps ++ [step] }

def addHandler (d : Draft) (step : Step) : Draft := { d with handlers := d.handlers ++ [step] }

def hold (d : Draft) (name : String) (source : Source) (site : Site) : Draft :=
  { d with pending := d.pending.put name (source, if site.isAttribute then some site.pos else none) }

/-- Gives a value to a property: by a step, or by construction when it cannot be set. -/
def store (d : Draft) (property : PropertyInfo) (source : Source) (site : Site) : Draft :=
  if property.settable then d.addStep ⟨site.pos, .set, property.name, source, none, none⟩
  else d.hold property.name source site

end Draft

/-- The source of an expression that is read once. It is converted when its type is not known or
does not fit.
-/
def expressionSource (e : Expr) (type : String) (pos : Position) : Planning (Option Source) := do
  unless ← checkReferences e do return none
  let fits ← match ← staticType e with
    | none => pure false
    | some _ => checkStaticType type e pos
  let convert := !fits && Coercion.isConvertible (← read).types type
  return some (.expr e.pos (.once e) (if convert then some type else none))

def textSource (text type : String) (textPos pos : Position) : Planning (Option Source) := do
  match Coercion.convert (← read).types textPos type text with
  | .ok source => return some source
  | .error cause =>
    report (.badText cause) pos
    return none

def valueSource (value : Value) (type : String) (pos : Position) : Planning (Option Source) := do
  match value with
  | .text textPos text => textSource text type textPos pos
  | .location valuePos path =>
    unless ← isAssignable type "str" do report (.locationMismatch path type) pos
    return some (.location valuePos path)
  | .resource valuePos key =>
    if (← read).resources.any (!·.contains key) then
      report (.unknownResource key) pos
      return none
    let convert := type != "str" && type != "object" && Coercion.isConvertible (← read).types type
    return some (.resource valuePos key (if convert then some type else none))
  | .binding .. =>
    report .misplacedBinding pos
    return none
  | .method _ name =>
    report (.misplacedMethod name) pos
    return none
  | .once e => expressionSource e type pos

def bindProperty (d : Draft) (property : PropertyInfo) (e : Expr) (pos : Position)
    : Planning Unit := do
  if property.kind != .value then
    report (.boundCollection property.kind property.name) pos
  else if !property.observable then
    report (.notBindable d.descriptor.name property.name) pos
  else if ← checkReferences e then
    let _ ← checkStaticType property.type e pos
    let binding : Binding := ⟨pos, d.element.var, property.name, .once e⟩
    modify fun s => { s with bindings := s.bindings ++ [binding] }

/-- Puts a value into a property. A list that cannot be replaced is extended. -/
def assignProperty (d : Draft) (property : PropertyInfo) (value : Value) (site : Site)
    : Planning Draft := do
  if let .binding _ e := value then
    bindProperty d property e site.pos
    return d
  let item := TypeName.listItem? property.type
  if property.kind == .list || (item.isSome && !property.settable) then
    let type := match value with
      | .text .. => TypeName.listOf (TypeName.itemOrObject property.type)
      | _ => if item.isSome then property.type else "object"
    match ← valueSource value type site.pos with
    | some source => return d.addStep ⟨site.pos, .extend, property.name, source, none, none⟩
    | none => return d
  else if property.kind == .map then
    report (.mapFromText property.name) site.pos
    return d
  else
    match ← valueSource value property.type site.pos with
    | some source => return d.store property source site
    | none => return d

/-- The type of a property that a type attaches to other objects; problems are reported. -/
def attachedType (ownerTag name : String) (pos : Position)
    : Planning (Option (String × String)) := do
  match ← resolveTag ownerTag pos with
  | none => return none
  | some (owner, d) =>
    match d.staticProperties.get? name with
    | some type => return some (owner, type)
    | none =>
      report (.noStaticProperty owner name) pos
      return none

def attach (d : Draft) (ownerTag name : String) (value : Value) (pos : Position)
    : Planning Draft := do
  match ← attachedType ownerTag name pos with
  | none => return d
  | some (owner, type) =>
    match ← valueSource value type pos with
    | some source => return d.addStep ⟨pos, .attach, name, source, some owner, none⟩
    | none => return d

end Fxml.Planning
