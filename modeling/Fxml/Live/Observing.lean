import Fxml.Live.Special

/-! The functions of observable values, declarations, builders and loaders, called by name. -/

namespace Fxml.Live

def nothing (action : Action Unit) : Action Value := do
  action
  return .null

def callObservable (self : Value) (name : String) (args : List Value) : Action Value := do
  match name, args with
  | "get", [] => throw .leftOpen
  | "add_listener", [listener] => nothing (addListener self listener)
  | "remove_listener", [listener] => nothing (removeListener self listener)
  | "_changed", [old, new] => nothing (announce self old new)
  | _, _ => throw .wrongType

def callProperty (self : Value) (name : String) (args : List Value) : Action Value := do
  match name, args with
  | "get", [] => return (← requireProperty self).2.value
  | "set", [value] => nothing (setProperty self value)
  | "_store", [value] => nothing (storeValue self value)
  | "bind", [source] => nothing (bind self source)
  | "unbind", [] => nothing (unbind self)
  | "is_bound", [] => return .bool !(← requireProperty self).2.source.isNull
  | "_source_changed", [_, _, new] => nothing (storeValue self new)
  | "__repr__", [] => do createText (← basicShown self)
  | _, _ => throw .wrongType

def callNode (owner : BasicType) (self : Value) (name : String) (args : List Value)
    : Action Value := do
  match owner, name, args with
  | .computed, "compute", [] => throw .leftOpen
  | _, "compute", [] => compute self
  | _, "get", [] => currentValue self
  | _, "_invalidate", _ => nothing (recompute self)
  | _, "_watch", [source] => do
    let (_, n) ← requireNode self
    nothing (watch self (← selectedProperty source (n.kind.name?.getD "")))
  | _, _, _ => throw .wrongType

def callObservableList (self : Value) (name : String) (args : List Value) : Action Value := do
  match ← changeList true self name args with
  | some result => pure result
  | none => match name, args with
    | "add_listener", [listener] => nothing (addListener self listener)
    | "remove_listener", [listener] => nothing (removeListener self listener)
    | "_fire", [added, removed] => nothing do
      if ← eitherTrue added removed then
        let change ← createRecord .listChange
          [("source", self), ("added", added), ("removed", removed)]
        notify self [change]
    | "__init__", [] => nothing (clearList false self)
    | "__init__", [source] => do
      clearList false self
      nothing (extendList false self source)
    | _, _ => throw .wrongType

def callDeclaration (self : Value) (name : String) (args : List Value) : Action Value := do
  match name, args with
  | "__set_name__", [_, name] => match self with
    | .object id => nothing (putOwn id "name" name)
    | _ => throw .noAttribute
  | "property", [owner] => propertyOfDeclaration self owner
  | "__get__", owner :: rest =>
    if 1 < rest.length then throw .wrongType
    else if owner.isNull then pure self
    else memberOf self owner
  | "__set__", [owner, value] => nothing (setMember self owner value)
  | _, _ => throw .wrongType

def callBuilder (self : Value) (name : String) (args : List Value) : Action Value := do
  match name, args with
  | "__init__", args => nothing (initializeBuilder self args)
  | "build", args => throw (if args.length ≤ 4 then .leftOpen else .wrongType)
  | "select_controller", [controller, factory] => selectController self controller factory
  | "merge", [sub, included] => nothing (merge self sub included)
  | _, _ => throw .wrongType

def callLoader (self : Value) (name : String) (args : List Value) : Action Value := do
  match name, args with
  | "__init__", args => nothing (initializeLoader self args)
  | "register", [location, type] => nothing (register self location type)
  | "locations", [] => locations self
  | "builder_for", [location] => builderFor self location
  | "load", location :: args =>
    if 4 < args.length then throw .wrongType
    else load self location (args ++ List.replicate (4 - args.length) .null)
  | _, _ => throw .wrongType

def callProvidedFunction (owner : BasicType) (self : Value) (name : String) (args : List Value)
    : Action Value := do
  match owner with
  | .observableValue => callObservable self name args
  | .property => callProperty self name args
  | .constant => match name, args with
    | "get", [] => currentValue self
    | _, _ => throw .wrongType
  | .computed | .selection | .invocation | .valueAt | .combination => callNode owner self name args
  | .observableList => callObservableList self name args
  | .propertyDeclaration | .listDeclaration | .eventDeclaration => callDeclaration self name args
  | .builder => callBuilder self name args
  | .loader => callLoader self name args
  | .bundle => match name, args with
    | "__missing__", [key] => match (← get).text? key with
      | some name => throw (.resource (.missing name))
      | none => throw .noKey
    | _, _ => throw .wrongType
  | .event | .listChange => match name, args with
    | "__repr__", [] => do createText (← basicShown self)
    | _, _ => throw .wrongType
  | _ => callProvided owner self name args

end Fxml.Live
