import Fxml.Live.Compare

/-! Listeners of values that can be observed. They are called in the order in which they were added;
those that are added or removed meanwhile do not count until the next change.
-/

namespace Fxml.Live

def listenersOf (target : Value) : Action (ObjectId × List Value) := do
  let w ← get
  match (w.object? target).bind (·.listeners) with
  | some list => match w.items? (.object list) with
    | some items => pure (list, items)
    | none => throw .noAttribute
  | none => throw .noAttribute

def addListener (target listener : Value) : Action Unit := do
  let (list, items) ← listenersOf target
  setBody list (.list (items ++ [listener]))

def removeListener (target listener : Value) : Action Unit := do
  let (list, items) ← listenersOf target
  if ← standsIn listener items then
    match ← positionOf? listener items with
    | some i => setBody list (.list (items.eraseIdx i))
    | none => throw .wrongValue

def notify (target : Value) (args : List Value) : Action Unit := do
  (← listenersOf target).2.forM fun listener => discard (call listener args)

/-- Tells the listeners of an observable about its old and its new value, unless nothing changed. -/
def announce (target old new : Value) : Action Unit := do
  if ← unchanged old new then pure ()
  else notify target [target, old, new]

end Fxml.Live

/-! Properties of objects: they are declared by classes, made when they are first asked for, and can
be bound to an observable value.
-/

namespace Fxml.Live

/-- The declaration of a property that a value has under a name: the first declaration along the
order of its type counts, but an attribute without a value does not.
-/
def World.propertyDeclaration? (w : World) (v : Value) (name : String) : Option Value :=
  let declared := (w.order (w.typeOf v)).filterMap fun t => w.ownMember? t name
  match declared.find? (!·.isNull) with
  | some declaration =>
    if w.isOf declaration .propertyDeclaration then some declaration else none
  | none => none

def propertyOf (v : Value) (name : String) : Action Value := do
  let w ← get
  match w.propertyDeclaration? v name with
  | some declaration => propertyOfDeclaration declaration v
  | none => throw (.noProperty (w.typeName v) name)

def toObservable (v : Value) : Action Value := do
  if (← get).isObservable v then pure v else createConstant v

def requireProperty (v : Value) : Action (ObjectId × Property) := do
  match v, (← get).body? v with
  | .object id, some (.property p) => pure (id, p)
  | _, _ => throw .noAttribute

def followerOf (property : Value) : Value :=
  .method property (.builtin ⟨.property, "_source_changed"⟩) 0

def storeValue (property value : Value) : Action Unit := do
  let (id, p) ← requireProperty property
  setBody id (.property { p with value := value })
  announce property p.value value

def setProperty (property value : Value) : Action Unit := do
  let (_, p) ← requireProperty property
  if !p.source.isNull then
    match (← get).text? p.name with
    | some name => throw (.boundProperty name)
    | none => throw .wrongType
  storeValue property value

def unbind (property : Value) : Action Unit := do
  let (id, p) ← requireProperty property
  if !p.source.isNull then
    removeListener p.source (followerOf property)
    setBody id (.property { p with source := .null })

def bind (property source : Value) : Action Unit := do
  let observable ← toObservable source
  unbind property
  let (id, p) ← requireProperty property
  setBody id (.property { p with source := observable })
  addListener observable (followerOf property)
  storeValue property (← tellValue observable)

end Fxml.Live
