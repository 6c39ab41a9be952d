import Fxml.Planning.Attribute
import Fxml.Planning.Construction

/-! Elements: objects with their content, constants, copies and included documents. -/

open Fxml.TypeName

namespace Fxml.Planning

def isValue : Node → Bool
  | .object .. | .constant .. | .reference .. | .copy .. | .inclusion .. => true
  | _ => false

def isProperty : Node → Bool
  | .property .. | .staticProperty .. => true
  | _ => false

def isItem : Node → Bool
  | .property .. | .staticProperty .. | .define .. => false
  | _ => true

def planConstant (node : Node) (tag name : String) : Planning (Option Element) := do
  match ← typeOf node with
  | none => return none
  | some type =>
    let e ← newElement node type .constant (Text.lower name)
    let context ← read
    let owner := (context.types.resolveType tag context.document.imports).toOption.join
    let e := { e with ownerType := owner, member := name }
    putElement e
    return some e

def planCopy (node : Node) (source : String) : Planning (Option Element) := do
  match ← entry? source with
  | none =>
    report (.unknownId source) node.pos
    return none
  | some entry =>
    match ← typeOf node with
    | none => return none
    | some type =>
      if (← describe type).any (!·.copyable) then
        report (.notCopyable type) node.pos
        return none
      let e ← newElement node type .copy (source ++ "_copy")
      let e := { e with source := some (.element node.pos entry.var) }.dependOn entry.var
      putElement e
      return some e

/-- Reports ids that an included document exports though they are taken. -/
def checkMerged (node : Node) (target : IncludeTarget) : Planning Unit := do
  for id in target.exports do
    let exported := (← get).exported
    let other := match (← read).registry.get? id with
      | some entry => some entry.node
      | none => (exported.get? id).filter (·.order != node.order)
    match other with
    | some first => report (.duplicateExport id target.path first.pos) node.pos
    | none => modify fun s => { s with exported := s.exported.put id node }

def linkSubController (e : Element) (inclusion : Inclusion) (target : IncludeTarget)
    : Planning Element := do
  match e.id, (← read).controller, target.controllerType with
  | some id, some controller, some type =>
    let field := id ++ "_controller"
    match Controller.fieldType? controller field with
    | none => return { e with inclusion }
    | some declared =>
      if ← isAssignable declared type then
        addLink ⟨e.pos, .field, field, field⟩
        return { e with inclusion := some { inclusion with controllerField := field } }.dependOn
          Plan.controllerNode
      report (.subControllerMismatch field type) e.pos
      return { e with inclusion }
  | _, _, _ => return { e with inclusion }

def planInclusion (node : Node) (source : String) : Planning (Option Element) := do
  match ← includeTarget node source with
  | none => return none
  | some target =>
    checkMerged node target
    let stem := Path.dropExtension (Path.baseName target.path)
    let e ← newElement node target.rootType .inclusion stem
    let builderVar ← claimName (e.var ++ "_builder")
    let inclusion : Inclusion :=
      ⟨target.path, target.module, target.className, e.id.getD e.var, builderVar, none⟩
    let e ← linkSubController e inclusion target
    putElement e
    return some e

/-- Where the content of an element goes that is in no property element. -/
inductive ContentTarget where
  | nothing
  | self
  | property (p : PropertyInfo)

/-- The property or list that takes the content of an element, given its value children and whether
it has text.
-/
def contentTarget (d : TypeDescriptor) (pos : Position) (values : List Node) (hasText : Bool)
    : Planning ContentTarget := do
  if values.isEmpty && !hasText then return .nothing
  if d.collection = some .list then return .self
  match d.defaultProperty with
  | none =>
    if let some first := values.head? then report (.noDefaultProperty d.name) first.pos
    return .nothing
  | some name =>
    let place := (values.head?.map Node.pos).getD pos
    match d.properties.get? name with
    | none =>
      report (.missingDefaultProperty d.name name) place
      return .nothing
    | some p =>
      if p.kind == .map then
        report (.mapDefaultProperty d.name p.name) place
        return .nothing
      let count := values.length + (if !values.isEmpty && hasText then 1 else 0)
      if p.kind == .value && (listItem? p.type).isNone && count > 1 then
        let place := (values[1]?.map Node.pos).getD pos
        report (.crowdedDefaultProperty d.name p.name count) place
        return .nothing
      return .property p

def holdsList (p : PropertyInfo) : Bool :=
  p.kind == .list || (listItem? p.type).isSome

def putChild (d : Draft) (p : PropertyInfo) (pos : Position) (source : Source)
    (type : Option String) : Planning Draft := do
  if holdsList p then
    checkAssignable (itemOrObject p.type) type pos
    return d.addStep ⟨pos, .append, p.name, source, none, none⟩
  else
    checkAssignable p.type type pos
    return d.store p source ⟨pos, false⟩

def putContent (d : Draft) (target : ContentTarget) (pos : Position) (source : Source)
    (type : Option String) : Planning Draft := do
  match target with
  | .nothing => return d
  | .self =>
    checkAssignable d.descriptor.itemType type pos
    return d.addStep ⟨pos, .append, "", source, none, none⟩
  | .property p => putChild d p pos source type

def putText (d : Draft) (target : ContentTarget) (text : Value) : Planning Draft := do
  match target with
  | .self =>
    let itemType := d.descriptor.itemType
    let (kind, type) : StepKind × String := match text with
      | .text .. => (.extend, listOf itemType)
      | _ => (.append, itemType)
    match ← valueSource text type text.pos with
    | some source => return d.addStep ⟨text.pos, kind, "", source, none, none⟩
    | none => return d
  | .property p => assignProperty d p text ⟨text.pos, false⟩
  | .nothing =>
    if d.descriptor.defaultProperty.isNone && d.descriptor.collection.isNone then
      return { d with text }
    return d

/-- Takes the attributes of a property element that is a map. -/
def putEntries (d : Draft) (p : PropertyInfo) (attributes : List Attribute) : Planning Draft := do
  let type := ((mapTypes? p.type).map Prod.snd).getD "object"
  attributes.foldlM (fun d a => do
    match a.value with
    | none => return d
    | some value =>
      match ← valueSource value type a.pos with
      | some source => return d.addStep ⟨a.pos, .put, p.name, source, none, some a.name⟩
      | none => return d) d

/-- The value that a node contributes, with its type as far as it is known; `plan` plans the node
itself.
-/
def contribute (node : Node) (plan : Planning (Option Element))
    : Planning (Option (Source × Option String)) := do
  match node with
  | .reference pos _ source =>
    match ← entry? source with
    | none =>
      report (.unknownId source) pos
      return none
    | some entry => return some (.element pos entry.var, ← typeOf entry.node)
  | node => return (← plan).map fun e => (.element node.pos e.var, some e.type)

/-- Puts the content of a property element into its property; `items` does so with the children. -/
def putProperty (d : Draft) (p : PropertyInfo) (pos : Position) (children : List Node)
    (text : Option Value) (items : Planning Draft) : Planning Draft := do
  if holdsList p then
    let d ← items
    match text with
    | some value => assignProperty d p value ⟨value.pos, false⟩
    | none => return d
  else
    match children.filter isItem with
    | [] => assignProperty d p (text.getD (.text pos "")) ⟨pos, false⟩
    | [_] => items
    | _ :: second :: more =>
      report (.crowdedProperty p.name (more.length + 2)) second.pos
      return d

/-- Takes a property element: `inner` plans what stands in it beside its items, and `items` puts
those into the property.
-/
def takeProperty (d : Draft) (pos : Position) (name : String) (attributes : List Attribute)
    (children : List Node) (text : Option Value) (inner : Planning Unit)
    (items : PropertyInfo → Planning Draft) : Planning Draft := do
  match d.descriptor.properties.get? name with
  | none =>
    report (.unknownProperty d.descriptor.name name) pos
    return d
  | some p =>
    inner
    if p.kind == .map || (mapTypes? p.type).isSome then
      let d ← putEntries d p attributes
      if children.any isItem || text.isSome then report (.mapFromContent p.name) pos
      return d
    for a in attributes do
      report (.attributedProperty name) a.pos
    putProperty d p pos children text (items p)

/-- Takes a property element of a property that another type attaches; `first` plans its first
child that is a value.
-/
def takeAttached (d : Draft) (pos : Position) (owner name : String) (children : List Node)
    (text : Option Value) (first : Planning (Option (Source × Option String)))
    : Planning Draft := do
  match children.filter isValue with
  | [] => attach d owner name (text.getD (.text pos "")) pos
  | _ :: second :: _ =>
    report (.crowdedStaticProperty name) second.pos
    return d
  | [value] =>
    match ← attachedType owner name pos with
    | none => return d
    | some (ownerType, type) =>
      match ← first with
      | none => return d
      | some (source, valueType) =>
        checkAssignable type valueType value.pos
        return d.addStep ⟨pos, .attach, name, source, some ownerType, none⟩

/-- Plans an object's element; `content` plans its children, given where they go. -/
def planObject (node : Node) (origin : Origin) (tag : String) (attributes : List Attribute)
    (children : List Node) (text : Option Value)
    (content : Draft → ContentTarget → Planning Draft) : Planning (Option Element) := do
  match ← typeOf node with
  | none => return none
  | some type =>
    match ← describe type with
    | none => return none
    | some descriptor =>
      let element ← newElement node type .construct (Naming.snake (TypeSource.lastPart tag))
      let d ← attributes.foldlM resolveAttribute { element, descriptor }
      let target ← contentTarget descriptor node.pos (children.filter isValue) text.isSome
      let d ← content d target
      let d ← match origin, text with
        | .construct, some text | .root, some text => putText d target text
        | _, _ => pure d
      match ← chooseStrategy d origin tag with
      | none =>
        dropElement element.var
        return none
      | some d =>
        let element ← finish d
        putElement element
        return some element

mutual

/-- Plans a node that stands for an object; none when it is no such node or has a problem. -/
def planNode : Node → Planning (Option Element)
  | .object pos order origin tag id attributes children text =>
    planObject (.object pos order origin tag id attributes children text) origin tag attributes
      children text fun d target => planChildren target children d
  | .constant pos order tag name id => planConstant (.constant pos order tag name id) tag name
  | .copy pos order source id => planCopy (.copy pos order source id) source
  | .inclusion pos order source id resources =>
    planInclusion (.inclusion pos order source id resources) source
  | _ => return none

def planChildren (target : ContentTarget) : List Node → Draft → Planning Draft
  | [], d => return d
  | .property pos _ name attributes children text :: rest, d => do
    let d ← takeProperty d pos name attributes children text (planInner name children)
      fun p => planItems p children d
    planChildren target rest d
  | .staticProperty pos _ owner name children text :: rest, d => do
    let d ← takeAttached d pos owner name children text (planFirst children)
    planChildren target rest d
  | .define _ _ children :: rest, d => do
    planDefined children
    planChildren target rest d
  | child :: rest, d => do
    let d ← match ← contribute child (planNode child) with
      | some (source, type) => putContent d target child.pos source type
      | none => pure d
    planChildren target rest d

/-- Plans what stands in a property element beside its items: definitions, and properties, which are
refused.
-/
def planInner (name : String) : List Node → Planning Unit
  | [] => return
  | .define _ _ children :: rest => do
    planDefined children
    planInner name rest
  | child :: rest => do
    if isProperty child then report (.nestedProperty name) child.pos
    planInner name rest

def planItems (p : PropertyInfo) : List Node → Draft → Planning Draft
  | [], d => return d
  | child :: rest, d => do
    if isItem child then
      let d ← match ← contribute child (planNode child) with
        | some (source, type) => putChild d p child.pos source type
        | none => pure d
      planItems p rest d
    else planItems p rest d

def planFirst : List Node → Planning (Option (Source × Option String))
  | [] => return none
  | child :: rest => if isValue child then contribute child (planNode child) else planFirst rest

/-- Plans objects that are put nowhere. A reference among them must exist. -/
def planDefined : List Node → Planning Unit
  | [] => return
  | .reference pos _ source :: rest => do
    if (← entry? source).isNone then report (.unknownId source) pos
    planDefined rest
  | child :: rest => do
    if let some e ← planNode child then putElement { e with attached := false }
    planDefined rest

end

end Fxml.Planning
