import Fxml.Live.ListMethod
import Fxml.Live.Node

/-! Making values of types. -/

namespace Fxml.Live

def createOf (t : TypeRef) (body : Body) : Action Value := do
  return .object (← create ⟨t, body, [], none⟩)

def wholeInBase (v base : Value) : Action Value := do
  let n ← indexOf base
  if n != 0 && (n < 2 || 36 < n) then throw .wrongValue
  match (← get).text? v with
  | some s => match Literal.wholeNumber? n.toNat s.toList with
    | some k => createInt k
    | none => throw .wrongValue
  | none => throw .wrongType

/-- The value of a basic type that arguments give: a number, a truth value, a text or a tuple. -/
def convertTo (t : BasicType) (args : List Value) : Action Value := do
  match t, args with
  | .integer, [] => return .small 0
  | .integer, [v] => toWhole v
  | .integer, [v, base] => wholeInBase v base
  | .number, [] => createFloat 0.0
  | .number, [v] => toReal v
  | .boolean, [] => return .bool false
  | .boolean, [v] => return .bool (← truth v)
  | .text, [] => return .emptyText
  | .text, [v] => displayValue v
  | .text, v :: encoding => match (← get).body? v with
    | some (.bytes data) => callBytesMethod data "decode" encoding
    | _ => throw .wrongType
  | .tuple, [] => createTuple []
  | .tuple, [v] => match (← get).typeOf v with
    | .basic .tuple => pure v
    | _ => do createTuple (← listElements v)
  | .bytes, [] => createBody .bytes (.bytes [])
  | _, _ => throw .wrongType

/-- A new value of a class before it is initialized: what it holds comes from the type that its class
refines.
-/
def makeInstance (t : TypeRef) (args : List Value) : Action Value := do
  let w ← get
  match w.coreOf? t with
  | some .list => createOf t (.list [])
  | some .dict => createOf t (.dict [])
  | some .tuple => do
    let items := ((← get).tupleItems? (← convertTo .tuple args)).getD []
    createOf t (.tuple items)
  | some core => do
    let v ← convertTo core args
    match (← get).scalar? v with
    | some s => createOf t (.scalar s)
    | none => throw .wrongType
  | none => match w.declaration? t "__init__" with
    | some (.basic .object, _) => if args.isEmpty then createOf t .plain else throw .wrongType
    | _ => createOf t .plain

/-- Gives a builder what it starts with; its location is its own unless another is given. -/
def initializeBuilder (builder : Value) (args : List Value) : Action Unit := do
  let location ← match args with
    | [] => pure Value.null
    | [location] => pure location
    | _ => throw .wrongType
  let own ← if location.isNull then getAttribute builder "LOCATION" else pure location
  setAttribute builder "location" own
  setAttribute builder "namespace" (← createDict [])
  setAttribute builder "controller" .null
  setAttribute builder "root" .null
  setAttribute builder "resources" .null

/-- Gives a loader a table of its own of what is known at which location. -/
def initializeLoader (loader : Value) (args : List Value) : Action Unit := do
  let source ← match args with
    | [] => pure Value.null
    | [source] => pure source
    | _ => throw .wrongType
  let table ← createDict []
  if ← truth source then updateDict table source
  setAttribute loader "_builders" table

def initializeBasic (t : BasicType) (v : Value) (args : List Value) : Action Unit := do
  let w ← get
  match t with
  | .list => discard (callListMethod v "__init__" args)
  | .dict => discard (callDictMethod v "__init__" args)
  | .builder => initializeBuilder v args
  | .loader => initializeLoader v args
  | _ => match w.declaration? (w.typeOf v) "__new__" with
    | some (.basic .object, _) => if args.isEmpty then pure () else throw .wrongType
    | _ => pure ()

/-- Initializes a new value; a class can say how. -/
def prepare (v : Value) (args : List Value) : Action Unit := do
  let w ← get
  match w.declaration? (w.typeOf v) "__init__" with
  | some (.made _, member) =>
    if !(← callMember v member args).isNull then throw .wrongType
  | some (.basic t, _) => initializeBasic t v args
  | none => pure ()

def memberWithValue (t : TypeRef) (members : Table Value) (value : Value) : Action Value := do
  let w ← get
  if w.typeOf value == t then return value
  let valueOf (member : Value) : Value := (w.own? member "_value_").getD .null
  let entries ← members.values.foldlM (fun found m => putEntry found (valueOf m) m) []
  let found ← try lookup? entries value
    catch e =>
      if e.isOfType then members.values.findM? fun member => matching (valueOf member) value
      else throw e
  match found with
  | some member => pure member
  | none =>
    if members.isEmpty then throw .wrongType
    let other ← match w.member? t "_missing_" with
      | some f => do call (← memberOfType f t) [value]
      | none => pure .null
    if (← get).typeOf other == t then return other
    discard (shown value)
    throw (if other.isNull then .wrongValue else .wrongType)

/-- Makes a value of a class: a new value is made and then initialized, unless it is of another
type.
-/
def constructClass (t : TypeRef) (args : List Value) : Action Value := do
  let w ← get
  match w.enumMembers? (.type t), args with
  | some members, [value] => memberWithValue t members value
  | some members, [value, names] =>
    if names.isNull then memberWithValue t members value
    else
      discard (shown value)
      throw .wrongType
  | some _, _ => throw .wrongType
  | none, _ =>
    let made ← match w.declaration? t "__new__" with
      | some (.made _, member) => do call (← memberOfType member t) (.type t :: args)
      | _ => makeInstance t args
    let w ← get
    if w.refines (w.typeOf made) t then prepare made args
    pure made

def constructRecord (t : BasicType) (names : List String) (args : List Value) : Action Value := do
  if args.length == names.length then createRecord t (names.zip args) else throw .wrongType

def constructBasic (t : BasicType) (args : List Value) : Action Value := do
  match t, args with
  | .list, [] => createList []
  | .list, [v] => do createList (← listElements v)
  | .dict, args | .bundle, args => do
    let dict ← createOf (.basic t) (.dict [])
    discard (callDictMethod dict "__init__" args)
    pure dict
  | .object, [] => createOf (.basic .object) .plain
  | .null, [] => return .null
  | .type, [v] => return .type ((← get).typeOf v)
  | .observableList, [] => createObservableList []
  | .observableList, [v] => do createObservableList (← listElements v)
  | .property, [owner, name] => createProperty owner name .null
  | .property, [owner, name, value] => createProperty owner name value
  | .constant, [value] => createConstant value
  | .selection, [source, name] => do createNode (.selection (← requireText name)) [source]
  | .invocation, source :: name :: args => do
    createNode (.invocation (← requireText name)) (source :: args)
  | .valueAt, [source, key] => createNode .valueAt [source, key]
  | .event, args => constructRecord .event ["source", "name"] args
  | .listChange, args => constructRecord .listChange ["source", "added", "removed"] args
  | .builder, args => do
    let builder ← createRecord .builder []
    initializeBuilder builder args
    pure builder
  | .loader, args => do
    let loader ← createRecord .loader []
    initializeLoader loader args
    pure loader
  | .slice, [stop] => createBody .slice (.slice .null stop .null)
  | .slice, [start, stop] => createBody .slice (.slice start stop .null)
  | .slice, [start, stop, step] => createBody .slice (.slice start stop step)
  | t, args => convertTo t args

def construct (t : TypeRef) (args : List Value) : Action Value :=
  match t with
  | .basic b => constructBasic b args
  | .made _ => constructClass t args

/-! Copies of values. A copy of an object has properties and lists of its own, with the values of the
moment, and shares everything else.
-/

def BasicType.isOwnCopy : BasicType → Bool
  | .null | .notImplemented | .boolean | .integer | .number | .text | .bytes | .tuple | .type
  | .enumType | .slice | .function | .builtin | .boundSlot | .slot | .methodDescriptor
  | .fieldDescriptor | .memberDescriptor | .parameterized => true
  | _ => false

def BasicType.isUncopyable : BasicType → Bool
  | .view _ | .mapping | .iterator .members => true
  | _ => false

/-- A new object of the type of another, with what that holds under names. -/
def createLike (o : Object) (scalar : Option Value) : Action Value := do
  let w ← get
  let fresh := match o.body with
    | .list _ => .list []
    | .dict _ => .dict []
    | body => body
  match w.declaration? o.type "__new__" with
  | some (.made _, member) => do
    let made ← call (← memberOfType member o.type) (.type o.type :: scalar.toList)
    match made with
    | .object id => o.attrs.forM fun (name, value) => setOwn id name value
    | _ => pure ()
    pure made
  | _ => return .object (← create { o with body := fresh })

/-- A copy of an object: its elements are put into the new one one by one. -/
def copyObject (v : Value) (o : Object) : Action Value := do
  match o.body with
  | .list _ => do
    let copy ← createLike o none
    forElements v fun item => discard (callMethod copy "append" [item])
    pure copy
  | .dict _ => do
    let copy ← createLike o none
    let items ← callMethod v "items" []
    forElements items fun item => do
      let (key, value) ← pairOf item
      setItem copy key value
    pure copy
  | .scalar s => do createLike o (some (← createScalar s))
  | _ => createLike o none

def shallowCopy (v : Value) : Action Value := do
  let w ← get
  match w.typeOf v, w.object? v with
  | .basic .list, some { body := .list items, .. } => createList items
  | .basic .dict, some { body := .dict entries, .. } => createDict entries
  | t, found =>
    let special ← match t with
      | .basic b => if b.isOwnCopy then pure none else getAttribute? (.type t) "__copy__"
      | .made _ => getAttribute? (.type t) "__copy__"
    match special.filter (!·.isNull), t, v, found with
    | some copier, _, _, _ => call copier [v]
    | none, _, .method self function _, _ => attach self function
    | none, .basic b, _, some o =>
      if b.isOwnCopy then pure v
      else if b.isUncopyable then throw .wrongType
      else copyObject v o
    | none, _, _, some o => copyObject v o
    | none, _, _, none => pure v

def copyProperties (owner : Value) (entries : List Entry) : Action (List Entry) :=
  entries.mapM fun e => do
    let value ← callMethod e.value "get" []
    return { e with value := ← createProperty owner e.key value }

def copyLists (entries : List Entry) : Action (List Entry) :=
  entries.mapM fun e => do
    let items ← listElements e.value
    return { e with value := ← createObservableList items }

def ownTable (id : ObjectId) (name : String) (copy : List Entry → Action (List Entry))
    : Action Unit := do
  let w ← get
  match (w.own? (.object id) name).filter (!·.isNull) with
  | none => pure ()
  | some shared => match w.entries? shared with
    | some entries => do putOwn id name (← createDict (← copy entries))
    | none => throw .noAttribute

/-- A copy of a value. What cannot change is its own copy. -/
def copyValue (v : Value) : Action Value := do
  let copy ← shallowCopy v
  match copy with
  | .object id =>
    if (← get).isOpen copy then
      ownTable id "_observables" (copyProperties copy)
      ownTable id "_observable_lists" copyLists
  | _ => pure ()
  pure copy

end Fxml.Live
