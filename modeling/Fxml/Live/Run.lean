import Fxml.Live.Builder
import Fxml.Live.Declaration

/-! What the steps of a script do. -/

namespace Fxml.Live

/-- Calls a method of a value with arguments that are evaluated once the method is found. -/
def callMethodOn (v : Value) (name : String) (args : Action (List Value)) : Action Value := do
  let method ← getAttribute v name
  call method (← args)

def factoryNamed (factory : Option String) : Action Value :=
  match factory with
  | some name => listenerNamed name
  | none => pure .null

def BuildArguments.eval (args : BuildArguments) : Action (List Value) := do
  let given ← evalTerms [args.controller, args.root, args.resources]
  return given ++ [← factoryNamed args.factory]

def sliceOf (bounds : List Term) : Action Value := do
  construct (.basic .slice) (← evalTerms bounds)

/-- Changes a list or a dictionary; gives what the change answers, and the value after it. -/
def Change.run (change : Change) (target : Value) : Action (Value × Value) := do
  match change with
  | .method name args => do
    let values ← evalTerms args
    return (← callMethod target name values, target)
  | .setItem key value => do
    let k ← key.eval
    Live.setItem target k (← value.eval)
    return (.null, target)
  | .setSlice bounds value => do
    let v ← value.eval
    Live.setItem target (← sliceOf bounds) v
    return (.null, target)
  | .deleteItem key => do
    Live.deleteItem target (← key.eval)
    return (.null, target)
  | .deleteSlice bounds => do
    Live.deleteItem target (← sliceOf bounds)
    return (.null, target)
  | .addInPlace value => do
    let after ← Live.addInPlace target (← value.eval)
    return (.bool (after.identical target), after)

def fire (object : Value) (slot : String) (event : Value) : Action Value := do
  let handler ← getAttribute object slot
  if handler.isNull then return .null
  let given ←
    if event.isNull then createRecord .event [("source", object), ("name", nameValue slot)]
    else pure event
  call handler [given]

def Step.run : Step → Action Value
  | .keep name step => do
    let v ← step.run
    modify fun w => { w with held := w.held.put name v }
    pure v
  | .declareClass decl => do decl.declare; return .null
  | .declareEnum name members => do Live.declareEnum name members; return .null
  | .declareBuilder decl => do decl.declare; return .null
  | .nameBuilderType name => do Live.nameBuilderType name; return .null
  | .declareListener name reaction fails returns takesNone => do
    discard (addNamedListener ⟨name, reaction, fails, ← returns.settle, takesNone⟩)
    return .null
  | .new type args => do
    let t ← typeNamed type
    call t (← evalTerms args)
  | .getAttr var attr => do getAttribute (← variableNamed var) attr
  | .setAttr var attr value => do
    let object ← variableNamed var
    setAttribute object attr (← value.eval)
    return .null
  | .classAttr type attr => do
    let found ← getAttribute (← typeNamed type) attr
    return nameValue ((← get).typeName found)
  | .evaluate operand => operand.eval
  | .current target => do callMethod (← target.eval) "get" []
  | .setProperty target value => do
    callMethodOn (← target.eval) "set" do return [← value.eval]
  | .bind target source => do
    let v ← target.eval
    callMethod v "bind" [← source.eval]
  | .unbind target => do callMethod (← target.eval) "unbind" []
  | .isBound target => do callMethod (← target.eval) "is_bound" []
  | .shown target => do createText (← Live.shown (← target.eval))
  | .listen target listener => do
    callMethodOn (← target.eval) "add_listener" do return [← listener.eval]
  | .unlisten target listener => do
    callMethodOn (← target.eval) "remove_listener" do return [← listener.eval]
  | .handle var slot handler => do
    let object ← variableNamed var
    setAttribute object slot (← handler.eval)
    return .null
  | .fire var slot event => do
    let object ← variableNamed var
    Live.fire object slot (← event.eval)
  | .newList items => do
    match items with
    | none => createObservableList []
    | some t => do createObservableList (← listElements (← t.eval))
  | .change target edit => do
    let v ← target.eval
    let (result, after) ← edit.run v
    createList [result, after]
  | .coerce value target => do
    let v ← value.eval
    Live.coerce v (← target.eval)
  | .apply fn args => do fn.apply (← evalTerms args)
  | .read object name => do Live.read (← object.eval) name
  | .unwrap value => do Live.unwrap (← value.eval)
  | .copy value => do copyValue (← value.eval)
  | .same left right => do
    let a ← left.eval
    return .bool (a.identical (← right.eval))
  | .requireRoot root type => do
    let v ← root.eval
    Live.requireRoot v (← type.eval)
  | .resourceText resources key => do Live.resourceText (← resources.eval) key
  | .newBuilder type location => do
    call (← typeNamed type) (location.toList.map nameValue)
  | .builderState builder => do Live.builderState (← variableNamed builder)
  | .selectController builder controller factory => do
    callMethodOn (← variableNamed builder) "select_controller" do
      let c ← controller.eval
      return [c, ← factoryNamed factory]
  | .build builder args => do callMethodOn (← variableNamed builder) "build" args.eval
  | .merge builder sub name => do
    callMethodOn (← variableNamed builder) "merge" do return [← variableNamed sub, nameValue name]
  | .newLoader builders => do
    let entries ← builders.mapM fun (location, type) => do return (location, ← typeNamed type)
    call (.basicType .loader) [← createDict (tableEntries (Table.ofList entries))]
  | .register loader location type => do
    callMethodOn (← variableNamed loader) "register" do
      return [nameValue location, ← typeNamed type]
  | .locations loader => do callMethod (← variableNamed loader) "locations" []
  | .builderFor loader location => do
    callMethod (← variableNamed loader) "builder_for" [nameValue location]
  | .load loader location args => do
    let builder ← callMethodOn (← variableNamed loader) "load" do
      return nameValue location :: (← args.eval)
    Live.builderState builder

end Fxml.Live
