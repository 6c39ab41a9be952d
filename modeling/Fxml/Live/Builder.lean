import Fxml.Live.Construct

/-! Builders of documents and loaders that find them. A builder holds where its document is, the named
elements, the controller, the root and the resources.
-/

namespace Fxml.Live

/-- Chooses the controller: the one that is given, else the one that the factory makes, else a new
one.
-/
def selectController (builder controller factory : Value) : Action Value := do
  let type ← if controller.isNull then getAttribute builder "CONTROLLER_TYPE" else pure .null
  let chosen ←
    if type.isNull then pure controller
    else if factory.isNull then do call (← getAttribute builder "CONTROLLER_TYPE") []
    else do call factory [← getAttribute builder "CONTROLLER_TYPE"]
  setAttribute builder "controller" chosen
  pure chosen

def nameElement (builder name value : Value) : Action Unit := do
  setItem (← getAttribute builder "namespace") name value

/-- Takes a named element of an included document over: exported names stay as they are, others get
the name of the included document before them.
-/
def mergeElement (builder sub included key value : Value) : Action Unit := do
  if ← holds (← getAttribute sub "EXPORTS") key then nameElement builder key value
  else
    let names ← getAttribute builder "namespace"
    let start ← applyBinary .add included (nameValue ".")
    setItem names (← applyBinary .add start key) value

/-- Takes the entries of a dictionary over from a position on. The dictionary must not grow or shrink
meanwhile.
-/
def mergeFrom (builder sub included : Value) (dict : ObjectId) (size : Nat) : Nat → Action Unit
  | 0 => pure ()
  | left + 1 => do
    let entries := ((← get).entries? (.object dict)).getD []
    match entries[size - (left + 1)]? with
    | some e =>
      mergeElement builder sub included e.key e.value
      let after := ((← get).entries? (.object dict)).getD []
      if after.length != size then throw .tableChanged
      mergeFrom builder sub included dict size left
    | none => throw .tableChanged

def merge (builder sub included : Value) : Action Unit := do
  let items ← callMethod (← getAttribute sub "namespace") "items" []
  match (← get).body? items with
  | some (.view .items dict) =>
    let size := (((← get).entries? (.object dict)).getD []).length
    mergeFrom builder sub included dict size size
  | _ => do
    forElements items fun item => do
      let (key, value) ← pairOf item
      mergeElement builder sub included key value

def builderState (builder : Value) : Action Value := do
  let entries ← ["location", "namespace", "controller", "root", "resources"].mapM fun name => do
    return (name, ← getAttribute builder name)
  createDict (tableEntries entries)

def builderTable (loader : Value) : Action Value := getAttribute loader "_builders"

def register (loader location type : Value) : Action Unit := do
  setItem (← builderTable loader) location type

def locations (loader : Value) : Action Value := do
  createList (← sortValues standsBefore (← listElements (← builderTable loader)))

def builderFor (loader location : Value) : Action Value := do
  let found ← try some <$> itemAt (← builderTable loader) location
    catch e => if e.isOfKey then pure none else throw e
  match found with
  | some type => pure type
  | none => throw (.noBuilder (← shown location))

def load (loader location : Value) (args : List Value) : Action Value := do
  let builder ← call (← callMethod loader "builder_for" [location]) []
  discard (callMethod builder "build" args)
  pure builder

def requireRoot (root expected : Value) : Action Value := do
  let w ← get
  if root.isNull then throw .noRoot
  match expected with
  | .type t =>
    if w.refines (w.typeOf root) t then pure root
    else throw (.wrongRoot (w.typeRefName t) (w.typeName root))
  | _ => match (← get).tupleItems? expected with
    | some _ => throw .noAttribute
    | none => throw .wrongType

def resourceText (resources : Value) (key : String) : Action Value := do
  if resources.isNull then throw (.resource (.noBundle key))
  try itemAt resources (nameValue key)
  catch e => if e.isOfKey then throw (.resource (.missing key)) else throw e

end Fxml.Live
