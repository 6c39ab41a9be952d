import Fxml.Live.Observing
import Fxml.Live.Run

/-! Values as a script shows them. Objects that a variable holds are shown by its name; scalars, lists,
tuples and dictionaries are written out.
-/

namespace Fxml.Live

namespace World

def variableOf? (w : World) (v : Value) : Option String :=
  (w.held.find? fun (_, held) => held.identical v).map (·.1)

/-- Whether a value is written out even when a variable holds it. -/
def isWrittenOut (w : World) (v : Value) : Bool :=
  (w.scalar? v).isSome || (w.items? v).isSome || (w.tupleItems? v).isSome || w.isOf v .dict

def eventText (w : World) (name : Value) : String :=
  "Event(" ++ (w.text? name).getD "" ++ ")"

/-- A value that no variable names, given how what it holds is shown. -/
def shownObject (w : World) (inner : Value → Shown) (v : Value) : Shown :=
  let field (name : String) : Value := (w.own? v name).getD .null
  match w.scalar? v, v, w.body? v with
  | some s, _, _ => .scalar s
  | none, .type t, _ => .type (w.typeRefName t)
  | none, _, some (.list items) =>
    if w.isOf v .observableList then .observableList (items.map inner) else .list (items.map inner)
  | none, _, some (.tuple items) => .list (items.map inner)
  | none, _, some (.property p) => .property (inner p.name) (inner p.value)
  | none, _, some (.constant value) => .observable (w.typeName v) (inner value)
  | none, _, some (.node n) => .observable (w.typeName v) (inner (n.value.getD .null))
  | none, _, some (.dict entries) =>
    if w.isOf v .dict then .dict (entries.map fun e => (inner e.key, inner e.value))
    else .new (w.typeName v)
  | none, _, _ =>
    if w.isOf v .event then
      .event (inner (field "name")) (inner (field "source")) (w.eventText (field "name"))
    else if w.isOf v .listChange then
      .listChange (inner (field "added")) (inner (field "removed")) (inner (field "source"))
    else if w.isEnumeration (w.typeOf v) then
      .member (w.typeName v) (inner (field "_name_"))
    else if w.isCallable v then .callable
    else .new (w.typeName v)

/-- A value as a script shows it, with a bound on how deeply values are nested. -/
def showWithin (w : World) : Nat → Value → Shown
  | 0, v => .new (w.typeName v)
  | depth + 1, v =>
    match if w.isWrittenOut v then none else w.variableOf? v with
    | some name => .var name
    | none => w.shownObject (w.showWithin depth) v

def showValue (w : World) (v : Value) : Shown := w.showWithin (w.objects.size + 1) v

end World

def logCall (name : String) (args : List Value) : Action Unit :=
  modify fun w => { w with log := (name, args.map w.showValue) :: w.log }

/-! Calls of values: of types, of what basic types provide, and of functions, those that build
documents included.
-/

/-- Lets the builder of an included document build, with only the resources and the factory of
controllers given.
-/
def buildIncluded (sub resources factory : Value) : Action Unit := do
  let function ← getAttribute sub "build"
  match function with
  | .method _ (.builtin ⟨.builder, "build"⟩) _ => throw .leftOpen
  | .method _ inner _ => match (← get).body? inner with
    | some (.function (.build _)) => discard (call function [.null, .null, resources, factory])
    | _ => throw .wrongType
  | .type (.basic .dict) => pure ()
  | _ => throw .wrongType

/-- Builds the document: the resources, the controller, the named elements, the included documents and
the root.
-/
def BuilderForm.build (form : BuilderForm) (builder controller root resources factory : Value)
    : Action Value := do
  setAttribute builder "resources" resources
  discard (callMethod builder "select_controller" [controller, factory])
  form.names.forM fun (name, term) => do
    let value ← term.eval
    nameElement builder (nameValue name) value
  form.includes.forM fun (included, type) => do
    let sub ← call (← typeNamed type) []
    buildIncluded sub resources factory
    discard (callMethod builder "merge" [sub, nameValue included])
  let chosen ← if root.isNull then form.root.eval else pure root
  setAttribute builder "root" chosen
  getAttribute builder "root"

/-- A value made for a type: itself if it is of a basic type, and otherwise what the type makes of
it.
-/
def madeFor (t : TypeRef) (owner : BasicType) (v : Value) : Action Value :=
  if t == .basic owner then pure v else call (.type t) [v]

def wholeOfBytes (args : List Value) : Action Value := do
  let (data, order) ← match args with
    | [data] => pure (data, "big")
    | [data, order] => do pure (data, ← requireText order)
    | _ => throw .wrongType
  if order != "big" && order != "little" then throw .wrongValue
  let digits ← match (← get).body? data with
    | some (.bytes bytes) => pure (bytes.map UInt8.toNat)
    | _ => do
      if (← get).text? data |>.isSome then throw .wrongType
      (← elements data).mapM fun item => do
        let n ← indexOf item
        if n < 0 || 255 < n then throw .wrongValue
        pure n.toNat
  let value : Nat := (if order == "big" then digits else digits.reverse).foldl (256 * · + ·) 0
  createInt value

def realOfHex (v : Value) : Action Value := do
  match Literal.readHex (← requireText v) with
  | .ok x => createFloat x
  | .error .malformed => throw .wrongValue
  | .error .tooLarge => throw (.arithmetic .tooLarge)

def bundleOfText (t : TypeRef) (v : Value) : Action Value := do
  match (← get).text? v with
  | some text => do
    let entries ← (Resource.read text).foldlM
      (fun found (key, value) => do putEntry found (← createText key) (← createText value)) []
    call (.type t) [← createDict entries]
  | none => throw .noAttribute

def bundleOfFile (v : Value) : Action Value := do
  let path ← requireText v
  throw (if path.contains (Char.ofNat 0) then .wrongValue else .noFile)

def callForType (t : TypeRef) (name : String) (args : List Value) : Action Value := do
  match name, args with
  | "fromkeys", args => dictFromKeys (call (.type t) []) args
  | "from_bytes", args => do madeFor t .integer (← wholeOfBytes args)
  | "fromhex", [text] => do madeFor t .number (← realOfHex text)
  | "from_text", [text] => bundleOfText t text
  | "load", [path] => bundleOfFile path
  | "__class_getitem__", [key] =>
    let given := ((← get).tupleItems? key).getD [key]
    createBody .parameterized (.parameterized t given)
  | "__init_subclass__", [] => return .null
  | "__subclasshook__", _ => return .notImplemented
  | "__prepare__", _ => createDict []
  | _, _ => throw .wrongType

def makeBy (owner : BasicType) (args : List Value) : Action Value := do
  let w ← get
  match args with
  | .type t :: rest =>
    if !w.refines t (.basic owner) || (owner == .object && (w.coreOf? t).isSome) then
      throw .wrongType
    else match t, w.enumMembers? (.type t), w.coreOf? t with
      | _, some members, _ => match rest with
        | [value] => memberWithValue t members value
        | _ => throw .wrongType
      | .basic b, none, some core =>
        if core == .list || core == .dict then makeInstance t rest else convertTo b rest
      | _, none, _ => makeInstance t rest
  | _ => throw .wrongType

def callBuiltin (b : Builtin) (args : List Value) : Action Value := do
  match b.kind, args with
  | .slot, self :: rest | .method, self :: rest =>
    if (← get).isOf self b.owner then callProvided b.owner self b.name rest else throw .wrongType
  | .function, self :: rest => callProvidedFunction b.owner self b.name rest
  | .classMethod, .type t :: rest => callForType t b.name rest
  | .staticMethod, args => if b.name == "maketrans" then makeTable args else makeBy b.owner args
  | _, _ => throw .wrongType

def FunctionBody.run (body : FunctionBody) (self : Value) (args : List Value) : Action Value := do
  match body with
  | .returns t => t.eval
  | .reads attr => getAttribute self attr
  | .echoes => createList args
  | .assigns attr => match args with
    | value :: _ => do
      setAttribute self attr value
      return .null
    | [] => throw .noIndex

/-- Calls a listener: it notes the call, runs its reaction, and fails or returns. -/
def Listener.run (l : Listener) (args : List Value) : Action Value := do
  if l.takesNone && !args.isEmpty then throw .wrongType
  logCall l.name args
  l.reaction.forM fun step => discard step.run
  if l.fails then throw .listenerFailed
  l.returns.eval

def Function.run (f : Function) (args : List Value) : Action Value := do
  match f, args with
  | .declared name body, self :: rest => do
    logCall name rest
    body.run self rest
  | .valueOf cls attr, [text] => do
    let made ← call (.type (.made cls)) []
    setAttribute made attr text
    pure made
  | .listener l, args => l.run args
  | .adapter inner takesOne, args =>
    if takesOne && args.length != 1 then throw .wrongType else call inner []
  | .build form, self :: rest =>
    if rest.length ≤ 4 then
      form.build self (rest.getD 0 .null) (rest.getD 1 .null) (rest.getD 2 .null)
        (rest.getD 3 .null)
    else throw .wrongType
  | .combines fn, args => fn.apply args
  | _, _ => throw .wrongType

def callObject (v : Value) (args : List Value) : Action Value := do
  let w ← get
  match w.body? v with
  | some (.function f) => f.run args
  | some (.staticFunction inner) => call inner args
  | some (.parameterized t _) => construct t args
  | _ => match w.override? v "__call__" with
    | some member => callMember v member args
    | none => throw .wrongType

def invoke : Value → List Value → Action Value
  | .type t, args => construct t args
  | .builtin b, args => callBuiltin b args
  | .method self function _, args => invoke function (self :: args)
  | .object id, args => callObject (.object id) args
  | _, _ => throw .wrongType

def callLimit : Nat := 1000

def callWithin : Nat → Caller
  | 0 => ⟨fun _ _ => throw .tooDeep⟩
  | depth + 1 => ⟨fun f args => (invoke f args).run (callWithin depth)⟩

/-! Scripts over live objects. A script runs step by step; each step answers with its result, or why it
failed, and with the calls of listeners and class functions that it led to.
-/

structure Answer where
  result : Except Error Shown
  log : List (String × List Shown)

def Step.answer (step : Step) (w : World) : Answer × World :=
  let (result, after) := ((step.run.run (callWithin callLimit)).run).run { w with log := [] }
  (⟨result.map after.showValue, after.log.reverse⟩, after)

def answers (w : World) : List Step → List Answer
  | [] => []
  | step :: rest =>
    let (answer, after) := step.answer w
    answer :: answers after rest

def runScript (steps : List Step) : List Answer := answers .initial steps

end Fxml.Live
