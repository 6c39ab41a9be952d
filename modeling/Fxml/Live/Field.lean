import Fxml.Live.Kind

/-! What objects hold under names of their own, and the attributes that basic types compute. -/

namespace Fxml.Live

/-- A name as a value; all occurrences of a name are one. -/
def nameValue (name : String) : Value := .scalar (.text name) 0

namespace NodeKind

def type : NodeKind → BasicType
  | selection _ => .selection
  | invocation _ => .invocation
  | valueAt => .valueAt
  | combination _ => .combination

def name? : NodeKind → Option String
  | selection name | invocation name => some name
  | _ => none

def withName? : NodeKind → String → Option NodeKind
  | selection _, name => some (selection name)
  | invocation _, name => some (invocation name)
  | _, _ => none

def watches : NodeKind → Bool
  | selection _ | valueAt => true
  | _ => false

end NodeKind

namespace Body

/-- What a body holds under names before anything can listen to it. -/
def leading : Body → Table Value
  | node n =>
    (n.kind.name?.map fun name => ("_name", nameValue name)).toList
      ++ (if n.kind.watches then [("_watched", (n.watched.map .object).getD .null)] else [])
  | _ => []

/-- What else a body holds under names, in the order in which it came there. -/
def fields : Body → Table Value
  | property p => [("bean", p.owner), ("name", p.name), ("_value", p.value), ("_binding", p.source)]
  | constant value => [("_value", value)]
  | node n => (n.value.map ("_value", ·)).toList
  | _ => []

def withField? (body : Body) (name : String) (value : Value) : Option Body :=
  match body with
  | property p =>
    if name == "bean" then some (property { p with owner := value })
    else if name == "name" then some (property { p with name := value })
    else if name == "_value" then some (property { p with value := value })
    else if name == "_binding" then some (property { p with source := value })
    else none
  | constant _ => if name == "_value" then some (constant value) else none
  | node n => match name, value with
    | "_value", _ => some (node { n with value := some value })
    | "_name", .scalar (.text read) _ =>
      (n.kind.withName? read).map fun kind => node { n with kind := kind }
    | _, _ => none
  | _ => none

end Body

namespace Object

def listening (o : Object) : Table Value :=
  (o.listeners.map fun id => ("_listeners", .object id)).toList

def contents (o : Object) : Table Value :=
  o.body.leading ++ o.listening ++ o.body.fields ++ o.attrs

end Object

def nodeField? (v : Value) (name : String) : Action (Option Value) := do
  match (← get).body? v, name with
  | some (.node n), "_operands" => some <$> createTuple n.operands
  | some (.node n), "_fn" => match n.kind with
    | .combination fn => some <$> createFunction (.combines fn)
    | _ => return none
  | _, _ => return none

/-- Everything that a value itself holds under names, in the order in which it came there. -/
def ownContents (v : Value) : Action (Table Value) := do
  match (← get).object? v with
  | none => return []
  | some o =>
    let function := (← nodeField? v "_fn").map ("_fn", ·)
    let operands := (← nodeField? v "_operands").map ("_operands", ·)
    return function.toList ++ o.body.leading ++ o.listening ++ operands.toList ++ o.body.fields
      ++ o.attrs

def World.own? (w : World) (v : Value) (name : String) : Option Value :=
  (w.object? v).bind fun o => o.contents.get? name

def putOwn (id : ObjectId) (name : String) (value : Value) : Action Unit := do
  match (← get).objects[id]? with
  | none => pure ()
  | some o =>
    match o.body.withField? name value, name == "_listeners", value with
    | some body, _, _ => setBody id body
    | none, true, .object list =>
      if o.listeners.isSome then setObject id { o with listeners := some list }
      else setOwn id name value
    | none, _, _ => setOwn id name value

def tableEntries (table : Table Value) : List Entry :=
  table.map fun (name, value) => ⟨.text name, nameValue name, value⟩

def createTypes (types : List TypeRef) : Action Value := createTuple (types.map .type)

def typeField (t : TypeRef) (name : String) : Action Value := do
  let w ← get
  match name with
  | "__name__" | "__qualname__" => return nameValue (w.typeRefName t)
  | "__mro__" => createTypes (w.order t)
  | "__bases__" => match t with
    | .basic b => createTypes ((b.ancestors.take 1).map .basic)
    | .made cls => createTypes (((w.class? cls).map (·.bases)).getD [])
  | "__base__" => match t with
    | .basic b => return ((b.ancestors.head?).map Value.basicType).getD .null
    | .made cls => return ((((w.class? cls).map (·.bases)).getD []).head?.map .type).getD .null
  | "__dict__" => match t with
    | .basic _ => createBody .mapping (.dict [])
    | .made cls =>
      createBody .mapping (.dict (tableEntries (((w.class? cls).map (·.members)).getD [])))
  | "__module__" => match t with
    | .basic _ => return nameValue "builtins"
    | .made _ => return nameValue "__main__"
  | "__doc__" => match w.member? t "__doc__" with
    | some (.builtin _) | none => return .null
    | some found => return found
  | "__text_signature__" => return .null
  | "__annotations__" => match t with
    | .basic _ => throw .noAttribute
    | .made _ => createDict []
  | "__abstractmethods__" => throw .noAttribute
  | _ => return .small 0

def functionField (w : World) (v : Value) (name : String) : Action Value := do
  match v, name with
  | .method self _ _, "__self__" => return self
  | .method _ function _, "__func__" => return function
  | .method _ (.builtin b) _, "__name__" | .builtin b, "__name__" => return nameValue b.name
  | .method _ (.builtin b) _, "__qualname__" | .builtin b, "__qualname__" =>
    return nameValue (b.owner.name ++ "." ++ b.name)
  | .builtin b, "__objclass__" => return .basicType b.owner
  | .object _, "__name__" | .object _, "__qualname__" => match w.body? v with
    | some (.function (.declared function _)) => return nameValue function
    | some (.function (.listener l)) => return nameValue l.name
    | _ => return nameValue "handler"
  | _, "__dict__" => match w.object? v with
    | some o => createDict (tableEntries o.attrs)
    | none => createDict []
  | _, "__annotations__" | _, "__globals__" | _, "__builtins__" => createDict []
  | _, "__module__" => return nameValue "__main__"
  | _, "__self__" => throw .noAttribute
  | _, _ => return .null

def numberField (w : World) (v : Value) (name : String) : Action Value := do
  match w.amount? v, name with
  | some (.whole n), "real" | some (.whole n), "numerator" => match v with
    | .scalar (.int _) _ => return v
    | _ => createInt n
  | some (.whole _), "imag" => return .small 0
  | some (.whole _), "denominator" => return .small 1
  | some (.real x), "real" => match v with
    | .scalar _ _ => return v
    | _ => createFloat x
  | some (.real _), "imag" => createFloat 0.0
  | _, _ => throw .wrongType

/-- An attribute that a basic type computes for one of its values. -/
def fieldValue (field : Builtin) (v : Value) : Action Value := do
  let w ← get
  match field.owner, field.name with
  | .object, "__class__" => return .type (w.typeOf v)
  | .object, "__dict__" => match w.object? v with
    | some _ => do createDict (tableEntries (← ownContents v))
    | none => throw .noAttribute
  | .object, _ => return .null
  | .type, name => match v with
    | .type t => typeField t name
    | _ => throw .wrongType
  | .enumType, _ => match w.enumMembers? v with
    | some members => createBody .mapping (.dict (tableEntries members))
    | none => throw .noAttribute
  | .enumeration, name =>
    match w.own? v (if name == "name" then "_name_" else "_value_") with
    | some found => return found
    | none => throw .noAttribute
  | .integer, name | .number, name => numberField w v name
  | .view _, _ => match w.body? v with
    | some (.view _ dict) => do
      createBody .mapping (.dict (((← get).entries? (.object dict)).getD []))
    | _ => throw .wrongType
  | _, name => functionField w v name

end Fxml.Live
