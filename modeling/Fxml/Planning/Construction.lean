import Fxml.Planning.Draft

/-! How an element's object is made: the choice among constructors, builders and text. -/

namespace Fxml.Planning

namespace Draft

def isSetter (s : Step) : Bool := s.kind == .set

/-- The values that a constructor may take, by name: those that only it can take, then the first
value of each property that is set.
-/
def offered (d : Draft) : Table Source :=
  (d.steps.filter isSetter).foldl (fun offered s =>
    if offered.contains s.target then offered else offered ++ [(s.target, s.source)])
    (d.pending.map fun (name, source, _) => (name, source))

/-- Whether a constructor takes all values that only it can take, and is given all it requires. -/
def isEligible (d : Draft) (c : Constructor) : Bool :=
  d.pending.keys.all (fun name => c.params.any (·.name == name))
    && c.required.all (d.offered.contains ·.name)

/-- How many parameters a constructor would leave to their defaults, and how many properties would
still have to be set.
-/
def rank (d : Draft) (c : Constructor) : Nat × Nat :=
  let covered := (c.params.filter (d.offered.contains ·.name)).map (·.name)
  (c.params.length - covered.length,
    (d.steps.filter fun s => isSetter s && !covered.contains s.target).length)

def isBetter (a b : Nat × Nat) : Bool := a.1 < b.1 || (a.1 == b.1 && a.2 < b.2)

/-- The eligible constructor with the best rank; the first declared of several. -/
def bestConstructor? (d : Draft) : Option Constructor :=
  (d.descriptor.constructors.filter d.isEligible).foldl (fun best c =>
    match best with
    | some b => if isBetter (d.rank c) (d.rank b) then some c else some b
    | none => some c) none

/-- Passes to a constructor the values it takes; properties given so are not set again. -/
def construct (d : Draft) (c : Constructor) : Draft :=
  let args := c.params.filterMap fun p => (d.offered.get? p.name).map (p.name, ·)
  let taken := args.map Prod.fst
  { d with
    element := { d.element with strategy := .construct, args }
    steps := d.steps.filter fun s => !(isSetter s && taken.contains s.target) }

end Draft

/-- Reports values that only a constructor could take, for an object that is not constructed. -/
def rejectPending (d : Draft) (reason : String) : Planning Unit := do
  for (name, _, place) in d.pending do
    report (.notSettable name reason) (place.getD d.element.pos)

def useText (d : Draft) (text : Value) : Planning (Option Draft) := do
  match d.descriptor.singleArgument.head?.bind (·.params.head?) with
  | none =>
    report (.noTextProperty d.descriptor.name) d.element.pos
    return none
  | some param =>
    match ← valueSource text param.type text.pos with
    | none => return none
    | some source =>
      return some { d with element := { d.element with strategy := .text, source } }

/-- Makes the object by a builder, which takes the values that cannot be set. -/
def useBuilder (d : Draft) (builder : String) : Planning (Option Draft) := do
  match ← describe builder with
  | none =>
    report (.unknownBuilder d.descriptor.name builder) d.element.pos
    return none
  | some b =>
    let settable (name : String) : Bool := (b.properties.get? name).any (·.settable)
    let refused := d.pending.filter fun (name, _) => !settable name
    for (name, _, place) in refused do
      report (.noBuilderProperty b.name name) (place.getD d.element.pos)
    let taken := d.pending.filter fun (name, _) => settable name
    let builderSteps := taken.map fun (name, source, _) =>
      ({ pos := source.pos, kind := .set, target := name, source } : Step)
    let builderVar ← claimName (d.element.var ++ "_builder")
    let element := { d.element with
      strategy := .builder, builderType := builder, builderVar, builderSteps }
    return if refused.isEmpty then some { d with element } else none

/-- Makes the object by a constructor with named arguments, or from text when none fits. -/
def useConstructor (d : Draft) : Planning (Option Draft) := do
  match d.bestConstructor? with
  | some c => return some (d.construct c)
  | none =>
    match d.text with
    | some text => useText d text
    | none =>
      let names := d.pending.keys.mergeSort fun a b => decide (a ≤ b)
      report (if names.isEmpty then .noConstructor d.descriptor.name
        else .noConstructorFor d.descriptor.name names) d.element.pos
      return none

def useType (d : Draft) : Planning (Option Draft) := do
  if d.pending.isEmpty then
    if let some text := d.text then return ← useText d text
    if d.descriptor.noArgument?.isSome then return some d
  match d.descriptor.builder with
  | some builder => useBuilder d builder
  | none => useConstructor d

/-- Chooses how the object of an element comes to be; none when there is no way. -/
def chooseStrategy (d : Draft) (origin : Origin) (tag : String) : Planning (Option Draft) := do
  match origin with
  | .root =>
    rejectPending d "the root object is supplied by the caller"
    return some { d with element := { d.element with strategy := .root } }
  | .value text =>
    match ← textSource text d.element.type d.element.pos d.element.pos with
    | none => return none
    | some source =>
      rejectPending d "fx:value elements are not constructed"
      return some { d with element := { d.element with strategy := .value, source } }
  | .factory method =>
    let context ← read
    let owner := (context.types.resolveType tag context.document.imports).toOption.join
    rejectPending d "fx:factory elements are not constructed"
    return some { d with
      element := { d.element with strategy := .factory, ownerType := owner, member := method } }
  | .construct => useType d

def setsId (e : Element) (d : TypeDescriptor) : Bool :=
  e.id.isSome && e.strategy != .value && e.strategy != .constant
    && (d.properties.get? "id").any fun p =>
      p.settable && (p.type == "str" || p.type == "object")

/-- The finished element: all steps, and the nodes that must come first. -/
def finish (d : Draft) : Planning Element := do
  let registry := (← read).registry
  let element := { d.element with
    steps := d.steps ++ d.handlers, setsId := setsId d.element d.descriptor }
  let needs := element.sources.flatMap (Source.needs fun id => (registry.get? id).map (·.var))
  return needs.foldl Element.dependOn element

end Fxml.Planning
