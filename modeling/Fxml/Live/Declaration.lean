import Fxml.Live.Enumeration
import Fxml.Live.Term

/-! Classes that a script declares. -/

namespace Fxml.Live

/-- What a class holds for a declared function: some functions are called without an object, or for the
class.
-/
def classMember (name : String) (v : Value) : Action Value := do
  match (← get).body? v with
  | some (.function _) =>
    if name == "__new__" then createBody .staticFunction (.staticFunction v)
    else if name == "__init_subclass__" || name == "__class_getitem__" then
      createBody .classFunction (.classFunction v)
    else pure v
  | _ => pure v

def tellName (t : TypeRef) (name : String) (v : Value) : Action Unit := do
  let w ← get
  match w.member? (w.typeOf v) "__set_name__" with
  | some member =>
    try discard (callMember v member [.type t, nameValue name])
    catch _ => throw .namingFailed
  | none => pure ()

def tellBases (t : TypeRef) : Action Unit := do
  let w ← get
  match ((w.order t).drop 1).findSome? (w.ownMember? · "__init_subclass__") with
  | some (.builtin _) | none => pure ()
  | some member => do discard (call (← memberOfType member t) [])

/-- Adds a class and makes its name known. An enumeration cannot be refined. -/
def addClass (name : String) (bases : List TypeRef) (makeMembers : ClassId → Action (Table Value))
    : Action Unit := do
  let cls := (← get).classes.size
  let given ← makeMembers cls
  let w ← get
  let bases := if bases.isEmpty then [.basic .object] else bases
  if bases.any w.isEnumeration then throw .noAttribute
  if !w.areBases bases then throw .wrongType
  match w.orderWith? cls bases with
  | none => throw .wrongType
  | some order =>
    if (given.get? "__qualname__").any fun v => (w.text? v).isNone then throw .wrongType
    if given.contains "__classcell__" then throw .wrongType
    let members ← given.mapM fun (name, v) => do return (name, ← classMember name v)
    modify fun w =>
      { w with classes := w.classes.push ⟨name, bases, order, completed members, none⟩ }
    let t := .made cls
    members.forM fun (name, v) => tellName t name v
    tellBases t
    modify fun w => { w with types := w.types.put name t }

/-- The members of a declared class. Of two declarations of one name the later counts. -/
def ClassDecl.members (decl : ClassDecl) (cls : ClassId) : Action (Table Value) := do
  let properties ← decl.properties.mapM fun (name, default, readOnly) => do
    let value ← default.eval
    return (name, ← createRecord .propertyDeclaration
      [("default", value), ("type", .null), ("read_only", .bool readOnly), ("name", .emptyText)])
  let lists ← decl.lists.mapM fun name => do
    return (name, ← createRecord .listDeclaration [("item_type", .null), ("name", .emptyText)])
  let events ← decl.events.mapM fun name => do
    return (name, ← createRecord .eventDeclaration [("type", .null), ("name", .emptyText)])
  let attrs ← decl.attrs.mapM fun (name, value) => do return (name, ← value.eval)
  let functions ← decl.functions.mapM fun (name, body) => do
    return (name, ← createFunction (.declared name (← body.settle)))
  let makers ← decl.valueOf.toList.mapM fun attr => do
    let make ← createFunction (.valueOf cls attr)
    return ("value_of", ← createBody .staticFunction (.staticFunction make))
  return Table.ofList (properties ++ lists ++ events ++ attrs ++ functions ++ makers)

def ClassDecl.declare (decl : ClassDecl) : Action Unit := do
  let bases ← decl.bases.mapM typeRefNamed
  addClass decl.name bases decl.members

def BuilderDecl.declare (decl : BuilderDecl) : Action Unit := do
  let controllerType ← match decl.controllerType with
    | some name => typeNamed name
    | none => pure .null
  addClass decl.name [.basic .builder] fun _ => do
    let exports ← createTuple (← decl.exports.mapM createText)
    return [("CONTROLLER_TYPE", controllerType), ("EXPORTS", exports),
      ("LOCATION", ← createText decl.location), ("build", ← createFunction (.build (← decl.form.settle)))]

def nameBuilderType (name : String) : Action Unit :=
  modify fun w => { w with types := w.types.put name (.basic .builder) }

end Fxml.Live
