import Fxml.Expr.Value
import Fxml.Planning.Draft

/-! Attributes: properties, handlers, constructor arguments and map entries. -/

namespace Fxml.Planning

/-- Whether a name has the form of a handler: `on` before a capital, or before an underscore and a
small letter.
-/
def isHandlerName (name : String) : Bool :=
  match name.toList with
  | 'o' :: 'n' :: '_' :: c :: _ => Text.isAsciiLower c
  | 'o' :: 'n' :: c :: _ => Text.isAsciiUpper c
  | _ => false

def between? (head tail : String) (name : String) : Option (List Char) :=
  let cs := name.toList
  if head.toList.isPrefixOf cs && tail.toList.isSuffixOf cs
      && head.length + tail.length ≤ cs.length then
    some ((cs.drop head.length).take (cs.length - head.length - tail.length))
  else none

def snakeChange? (name : String) : Option String :=
  match between? "on_" "_change" name with
  | some cs => if cs.isEmpty || !cs.all Text.isWord then none else some (String.ofList cs)
  | none => none

/-- The property of `onPropertyChange`, with a small first letter. -/
def camelChange? (name : String) : Option String :=
  match between? "on" "Change" name with
  | some (c :: cs) =>
    if Text.isAsciiUpper c && cs.all Text.isWord then
      some (Text.lower (String.singleton c) ++ String.ofList cs)
    else none
  | _ => none

def changedProperty? (d : TypeDescriptor) (name : String) : Option PropertyInfo :=
  let snake := (snakeChange? name).bind d.properties.get?
  let camel := (camelChange? name).bind fun camel =>
    d.properties.get? camel <|> d.properties.get? (Naming.snake camel)
  snake <|> camel

/-- What a handler is called with: an event, the change of a value, or the change of a list. -/
inductive Occasion where
  | event (type : String)
  | valueChange
  | listChange
deriving DecidableEq

/-- How many of the arguments of an occasion a method of the controller takes. -/
def methodArity (types : TypeSource) (d : TypeDescriptor) (name : String)
    : Occasion → Except Controller.Error Nat
  | .event type => Controller.handlerArity types d name type
  | .valueChange => Controller.listenerArity d name false
  | .listChange => Controller.listenerArity d name true

def methodSource (name : String) (pos : Position) (occasion : Occasion)
    : Planning (Option Source) := do
  match (← read).controller with
  | none =>
    report (.needsController name) pos
    return none
  | some d =>
    match methodArity (← read).types d name occasion with
    | .error cause =>
      report (.badMethod cause) pos
      return none
    | .ok arity =>
      addLink ⟨pos, .method, "#" ++ name, name⟩
      return some (.method pos name arity)

/-- The source of a handler: a method of the controller, or an object. -/
def handlerSource (a : Attribute) (occasion : Occasion) : Planning (Option Source) := do
  match Value.readHandler a.raw.toList a.valuePos with
  | .error (.halt reason) => throw (.halted reason)
  | .error (.fault e) =>
    modify fun s => { s with diagnostics := s.diagnostics.addFault e.toFault }
    return none
  | .ok none => return none
  | .ok (some (.method pos name)) => methodSource name pos occasion
  | .ok (some (.once e)) =>
    return (← expressionSource e "object" a.pos).map (.handler e.pos ·)
  | .ok (some _) => return none

/-- Takes an attribute as an event handler or change listener; none when its name is neither. -/
def resolveHandler (d : Draft) (a : Attribute) : Planning (Option Draft) := do
  let slot := Naming.snake a.name
  let add (kind : StepKind) (target : String) (occasion : Occasion) : Planning Draft := do
    match ← handlerSource a occasion with
    | some source => return d.addHandler ⟨a.pos, kind, target, source, none, none⟩
    | none => return d
  match d.descriptor.events.get? slot with
  | some type => return some (← add .handler slot (.event type))
  | none =>
    match changedProperty? d.descriptor a.name with
    | none => return none
    | some property =>
      if property.kind == .list then
        return some (← add .listListener property.name .listChange)
      else if property.observable then
        return some (← add .listener property.name .valueChange)
      else
        report (.notObservable d.descriptor.name property.name) a.pos
        return some d

def parameterType? (d : TypeDescriptor) (name : String) : Option String :=
  d.constructors.findSome? fun c => (c.param? name).map (·.type)

/-- Takes an attribute that is neither a property nor a handler: a constructor argument, or an entry
of a map.
-/
def resolveArgument (d : Draft) (a : Attribute) (value : Value) : Planning Draft := do
  match parameterType? d.descriptor a.name with
  | some type =>
    if let .binding .. := value then
      report (.boundArgument a.name) a.pos
      return d
    match ← valueSource value type a.pos with
    | some source => return d.hold a.name source ⟨a.pos, true⟩
    | none => return d
  | none =>
    if d.descriptor.collection = some .map then
      match ← valueSource value d.descriptor.itemType a.pos with
      | some source => return d.addStep ⟨a.pos, .put, "", source, none, some a.name⟩
      | none => return d
    report (.unknownAttribute d.descriptor.name a.name) a.pos
    return d

/-- Takes an attribute into an element. One whose value is malformed is passed over. -/
def resolveAttribute (d : Draft) (a : Attribute) : Planning Draft := do
  match a.value with
  | none => return d
  | some value =>
    if let some owner := a.owner then return ← attach d owner a.name value a.pos
    match d.descriptor.properties.get? a.name with
    | some property => assignProperty d property value ⟨a.pos, true⟩
    | none =>
      let handled ← if isHandlerName a.name then resolveHandler d a else pure none
      match handled with
      | some d => return d
      | none => resolveArgument d a value

end Fxml.Planning
