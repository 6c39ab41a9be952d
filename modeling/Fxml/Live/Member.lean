import Fxml.Live.Field

/-! What the members of a type are for its values. Functions are attached to the value; a declared
property, list or event slot is made when it is asked for the first time.
-/

namespace Fxml.Live

def createProperty (owner name value : Value) : Action Value := do
  let listeners ← create ⟨.basic .list, .list [], [], none⟩
  return .object (← create
    ⟨.basic .property, .property ⟨owner, name, value, .null⟩, [], some listeners⟩)

def createObservableList (items : List Value) : Action Value := do
  let listeners ← create ⟨.basic .list, .list [], [], none⟩
  return .object (← create ⟨.basic .observableList, .list items, [], some listeners⟩)

def createConstant (value : Value) : Action Value := do
  let listeners ← create ⟨.basic .list, .list [], [], none⟩
  return .object (← create ⟨.basic .constant, .constant value, [], some listeners⟩)

/-- The current value of an observable; a node that was never computed has none. -/
def currentValue (v : Value) : Action Value := do
  match (← get).body? v with
  | some (.property p) => pure p.value
  | some (.constant value) => pure value
  | some (.node n) => match n.value with
    | some value => pure value
    | none => throw .noAttribute
  | _ => throw .noAttribute

/-- What an object itself holds under a name in place of a function of its type. -/
def World.replacement? (w : World) (v : Value) (name : String) : Option Value :=
  (w.object? v).bind (·.attrs.get? name)

def tellValue (v : Value) : Action Value := do
  match (← get).replacement? v "get" with
  | some f => call f []
  | none => currentValue v

/-- The current value of an observable, and any other value itself. -/
def unwrap (v : Value) : Action Value := do
  if (← get).isObservable v then tellValue v else pure v

/-- The table that an object keeps under a name, made empty when there is none yet. -/
def tableOf (owner : Value) (name : String) : Action ObjectId := do
  let w ← get
  match owner, w.own? owner name with
  | .object _, some (.object table) =>
    if (w.entries? (.object table)).isSome then pure table else throw .noAttribute
  | .object id, none =>
    let table ← create ⟨.basic .dict, .dict [], [], none⟩
    putOwn id name (.object table)
    pure table
  | _, _ => throw .noAttribute

def named? (entries : List Entry) (name : String) : Option Value :=
  (entries.find? fun e => e.code == .text name).map (·.value)

/-- Entries with a value for a name; a name that is there keeps its place. -/
def putNamed (entries : List Entry) (name : String) (value : Value) : List Entry :=
  if (named? entries name).isSome then
    entries.map fun e => if e.code == .text name then { e with value := value } else e
  else entries ++ [⟨.text name, nameValue name, value⟩]

def World.inTable? (w : World) (table : ObjectId) (name : String) : Option Value :=
  (w.entries? (.object table)).bind (named? · name)

def putInTable (table : ObjectId) (name : String) (value : Value) : Action Unit := do
  setBody table (.dict (putNamed (((← get).entries? (.object table)).getD []) name value))

def declaredName (declaration : Value) : Action String := do
  let w ← get
  match (w.own? declaration "name").bind w.text? with
  | some name => pure name
  | none => throw .wrongType

/-- The property of an object that a declaration declares, made with its default when there is none
yet.
-/
def propertyOfDeclaration (declaration owner : Value) : Action Value := do
  let name ← declaredName declaration
  let table ← tableOf owner "_observables"
  let w ← get
  match (w.inTable? table name).filter (!·.isNull) with
  | some property => pure property
  | none =>
    let default := (w.own? declaration "default").getD .null
    let property ← createProperty owner (nameValue name) default
    putInTable table name property
    pure property

/-- The observable list of an object that a declaration declares, made empty when there is none
yet.
-/
def listOfDeclaration (declaration owner : Value) : Action Value := do
  let name ← declaredName declaration
  let table ← tableOf owner "_observable_lists"
  match ((← get).inTable? table name).filter (!·.isNull) with
  | some list => pure list
  | none =>
    let list ← createObservableList []
    putInTable table name list
    pure list

def handlerOfDeclaration (declaration owner : Value) : Action Value := do
  let name ← declaredName declaration
  let w ← get
  match w.own? owner "_handlers" with
  | some (.object table) => return (w.inTable? table name).getD .null
  | some _ => throw .noAttribute
  | none => return .null

def memberOf (member self : Value) : Action Value := do
  let w ← get
  match member with
  | .builtin b => match b.kind with
    | .slot | .method | .function => attach self member
    | .classMethod => attach (.type (w.typeOf self)) member
    | .staticMethod => pure member
    | .field | .memberField => fieldValue b self
  | .object _ => match w.typeOf member, w.body? member with
    | _, some (.function _) => attach self member
    | _, some (.staticFunction inner) => pure inner
    | _, some (.classFunction inner) => attach (.type (w.typeOf self)) inner
    | .basic .propertyDeclaration, _ => do
      tellValue (← propertyOfDeclaration member self)
    | .basic .listDeclaration, _ => listOfDeclaration member self
    | .basic .eventDeclaration, _ => handlerOfDeclaration member self
    | _, _ => match w.override? member "__get__" with
      | some getter => call getter [member, self, .type (w.typeOf self)]
      | none => pure member
  | _ => pure member

def memberOfType (member : Value) (t : TypeRef) : Action Value := do
  let w ← get
  match member with
  | .builtin b => match b.kind with
    | .classMethod => attach (.type t) member
    | _ => pure member
  | .object _ => match w.body? member with
    | some (.staticFunction inner) => pure inner
    | some (.classFunction inner) => attach (.type t) inner
    | _ => match w.override? member "__get__" with
      | some getter => call getter [member, .null, .type t]
      | none => pure member
  | _ => pure member

def callMember (self member : Value) (args : List Value) : Action Value := do
  match member, (← get).body? member with
  | .builtin _, _ | _, some (.function _) => call member (self :: args)
  | _, _ => do call (← memberOf member self) args

/-- Calls what a class declares for a value under a name, if it declares something. -/
def callOverride? (self : Value) (name : String) (args : List Value) : Action (Option Value) := do
  match (← get).override? self name with
  | some member => some <$> callMember self member args
  | none => pure none

end Fxml.Live
