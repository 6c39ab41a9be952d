import Fxml.Live.Property

/-! Attributes of values. What a type declares to be computed is looked up first, then what the
value itself holds, then everything else that its type declares.
-/

namespace Fxml.Live

namespace World

/-- Whether a member of a type decides what its values have under its name, whatever they hold
themselves.
-/
def isDeciding (w : World) (member : Value) : Bool :=
  match member with
  | .builtin b => b.kind == .field || b.kind == .memberField
  | .object _ => match w.typeOf member with
    | .basic .propertyDeclaration | .basic .listDeclaration | .basic .eventDeclaration => true
    | t => (w.member? t "__set__").isSome || (w.member? t "__delete__").isSome
  | _ => false

def isOpen (w : World) (v : Value) : Bool :=
  match v, w.typeOf v with
  | .object _, .made _ => true
  | .object _, .basic t => t.isOpen
  | _, _ => false

end World

/-- An attribute of a value that is no type, as far as no class says otherwise. -/
def valueAttribute (v : Value) (name : String) : Action Value := do
  let w ← get
  let member := w.member? (w.typeOf v) name
  match member.filter w.isDeciding with
  | some m => memberOf m v
  | none =>
    if name == "__dict__" && w.isOpen v then fieldValue ⟨.object, "__dict__"⟩ v
    else match w.own? v name, member with
      | some found, _ => pure found
      | none, some m => memberOf m v
      | none, none => match ← nodeField? v name with
        | some found => pure found
        | none => throw .noAttribute

/-- An attribute of a type, as far as the type of the type does not decide it. A name or value that
every member of an enumeration has is no attribute of the enumeration, though a member may be called
so.
-/
def typeAttribute (t : TypeRef) (name : String) : Action Value := do
  let w ← get
  let ofTypes := w.member? (w.typeOf (.type t)) name
  match ofTypes.filter w.isDeciding with
  | some m => memberOf m (.type t)
  | none => match w.member? t name, ofTypes with
    | some (.builtin ⟨.enumeration, field⟩), _ =>
      if field == "name" || field == "value" then
        match ((w.enumMembers? (.type t)).getD []).get? name with
        | some found => pure found
        | none => throw .noAttribute
      else pure (.builtin ⟨.enumeration, field⟩)
    | some m, _ => memberOfType m t
    | none, some m => memberOf m (.type t)
    | none, none => throw .noAttribute

/-- An attribute of a value, as far as no class says otherwise. A function that is attached to a value
has the attributes of the function.
-/
def plainAttribute (v : Value) (name : String) : Action Value := do
  let w ← get
  match v with
  | .type t => typeAttribute t name
  | .method _ (.object id) _ =>
    if w.supports v name then valueAttribute v name else valueAttribute (.object id) name
  | _ => valueAttribute v name

/-- An attribute of a value. A class can say how attributes are found, and what those that are missing
are.
-/
def getAttribute (v : Value) (name : String) : Action Value := do
  let w ← get
  let found ← try
      match w.override? v "__getattribute__" with
      | some member => Except.ok <$> callMember v member [nameValue name]
      | none => Except.ok <$> plainAttribute v name
    catch e => if e.isOfAttribute then pure (Except.error e) else throw e
  match found with
  | .ok value => pure value
  | .error e =>
    match (← get).override? v "__getattr__" with
    | some member => callMember v member [nameValue name]
    | none => throw e

def getAttribute? (v : Value) (name : String) : Action (Option Value) := do
  try return some (← getAttribute v name)
  catch e => if e.isOfAttribute then return none else throw e

def callMethod (v : Value) (name : String) (args : List Value) : Action Value := do
  call (← getAttribute v name) args

def setMember (member v : Value) (value : Value) : Action Unit := do
  let w ← get
  match w.typeOf member with
  | .basic .propertyDeclaration =>
    if ← truth ((w.own? member "read_only").getD .null) then
      throw (.readOnlyProperty (← declaredName member))
    let property ← propertyOfDeclaration member v
    match (← get).replacement? property "set" with
    | some f => discard (call f [value])
    | none => setProperty property value
  | .basic .listDeclaration => throw (.readOnlyList (← declaredName member))
  | .basic .eventDeclaration =>
    let slot ← declaredName member
    if !value.isNull && !w.isCallable value then throw (.uncallableHandler slot)
    putInTable (← tableOf v "_handlers") slot value
  | _ => match w.override? member "__set__" with
    | some setter => discard (callMember member setter [v, value])
    | none => throw .noAttribute

/-- Makes an object an object of another class. Both classes must hold the same kind of thing. -/
def setClass (v value : Value) : Action Unit := do
  let w ← get
  match v, value, w.object? v with
  | .object id, .type (.made cls), some o => match o.type with
    | .made old =>
      if w.coreOf? (.made old) == w.coreOf? (.made cls)
          && w.isEnumeration (.made old) == w.isEnumeration (.made cls) then
        setObject id { o with type := .made cls }
      else throw .wrongType
    | _ => throw .wrongType
  | _, _, _ => throw .wrongType

/-- Sets an attribute of a value that is no type, as far as no class says otherwise. -/
def setValueAttribute (v : Value) (name : String) (value : Value) : Action Unit := do
  let w ← get
  match (w.member? (w.typeOf v) name).filter w.isDeciding with
  | some (.builtin ⟨.object, "__class__"⟩) => setClass v value
  | some (.builtin b) => match w.object? v with
    | some o => match v, o.body with
      | .object id, .function _ =>
        if b.name == "__name__" || b.name == "__qualname__" || b.name == "__doc__" then
          setOwn id name value
        else throw .noAttribute
      | _, _ => throw .noAttribute
    | none => throw .noAttribute
  | some member => setMember member v value
  | none => match v with
    | .object id => if w.isOpen v then putOwn id name value else throw .noAttribute
    | _ => throw .noAttribute

/-- Sets an attribute of a type. Types that are there from the beginning do not change, and members of
enumerations stay what they are.
-/
def setTypeAttribute (t : TypeRef) (name : String) (value : Value) : Action Unit := do
  let w ← get
  match t with
  | .basic _ => throw .wrongType
  | .made cls =>
    match w.class? cls with
    | none => throw .wrongType
    | some c =>
      let isKept := c.enumerates.isSome && name == "__members__"
      if isKept || (c.enumerates.getD []).contains name then throw .noAttribute
      else if name == "__name__" then
        match w.text? value with
        | some s => set { w with classes := w.classes.modify cls ({ · with name := s }) }
        | none => throw .wrongType
      else if ["__mro__", "__dict__", "__base__", "__class__"].contains name then
        throw (if name == "__class__" then .wrongType else .noAttribute)
      else
        set { w with
          classes := w.classes.modify cls fun c => { c with members := c.members.put name value } }

/-- Sets an attribute of a value. A class can say how attributes are set. -/
def setAttribute (v : Value) (name : String) (value : Value) : Action Unit := do
  match v with
  | .type t => setTypeAttribute t name value
  | _ => match ← callOverride? v "__setattr__" [nameValue name, value] with
    | some _ => pure ()
    | none => setValueAttribute v name value

end Fxml.Live
