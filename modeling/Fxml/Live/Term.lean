import Fxml.Live.Node

/-! The values that a script writes. -/

namespace Fxml.Live

def variableNamed (name : String) : Action Value := do
  match (← get).held.get? name with
  | some v => pure v
  | none => throw .noKey

def typeRefNamed (name : String) : Action TypeRef := do
  match (← get).types.get? name with
  | some t => pure t
  | none => throw .noKey

def typeNamed (name : String) : Action Value := do return .type (← typeRefNamed name)

def addNamedListener (l : Listener) : Action Value := do
  let id ← create ⟨.basic .function, .function (.listener l), [], none⟩
  modify fun w => { w with listeners := w.listeners.put l.name id }
  pure (.object id)

/-- The listener with a name. One that was not declared only notes its calls. -/
def listenerNamed (name : String) : Action Value := do
  match (← get).listeners.get? name with
  | some id => pure (.object id)
  | none => addNamedListener ⟨name, [], false, .scalar .null, false⟩

mutual

def Term.eval : Term → Action Value
  | .scalar s => createScalar s
  | .settled s occurrence => pure (.scalar s occurrence)
  | .list items => do createList (← evalTerms items)
  | .dict entries => do createDict (← evalEntries [] entries)
  | .bundle entries => do createBody .bundle (.dict (← evalEntries [] entries))
  | .var name => variableNamed name
  | .type name => typeNamed name
  | .member type name => do itemAt (← typeNamed type) (nameValue name)
  | .listener name => listenerNamed name
  | .attr var name => do getAttribute (← variableNamed var) name
  | .property var name => do propertyOf (← variableNamed var) name

def evalTerms : List Term → Action (List Value)
  | [] => pure []
  | t :: rest => do
    let v ← t.eval
    return v :: (← evalTerms rest)

def evalEntries (entries : List Entry) : List (Term × Term) → Action (List Entry)
  | [] => pure entries
  | (key, value) :: rest => do
    let k ← key.eval
    let v ← value.eval
    evalEntries (← putEntry entries k v) rest

end

/-- Whether a written scalar is one occurrence however often it is evaluated. Floating-point numbers and
large whole numbers are spelled, and read anew each time.
-/
def isWrittenOnce : Scalar → Bool
  | .int n => n.natAbs ≤ 1 <<< 53
  | .float _ => false
  | _ => true

mutual

/-- Settles the occurrences of the scalars of a term that may be evaluated several times. -/
def Term.settle : Term → Action Term
  | .scalar s => do
    if isSingle s || !isWrittenOnce s then return .scalar s
    else return .settled s (← newOccurrence)
  | .list items => do return .list (← settleTerms items)
  | .dict entries => do return .dict (← settleEntries entries)
  | .bundle entries => do return .bundle (← settleEntries entries)
  | t => pure t

def settleTerms : List Term → Action (List Term)
  | [] => pure []
  | t :: rest => do
    let t ← t.settle
    return t :: (← settleTerms rest)

def settleEntries : List (Term × Term) → Action (List (Term × Term))
  | [] => pure []
  | (key, value) :: rest => do
    let key ← key.settle
    let value ← value.settle
    return (key, value) :: (← settleEntries rest)

end

def FunctionBody.settle : FunctionBody → Action FunctionBody
  | .returns t => do return .returns (← t.settle)
  | body => pure body

def BuilderForm.settle (form : BuilderForm) : Action BuilderForm := do
  let names ← form.names.mapM fun (name, t) => do return (name, ← t.settle)
  return { form with names := names, root := ← form.root.settle }

mutual

/-- The value of an operand; nodes are made from the inside out. -/
def Operand.eval : Operand → Action Value
  | .term t => t.eval
  | .constant t => do createConstant (← t.eval)
  | .select source name => do
    let s ← source.eval
    createNode (.selection name) [s]
  | .call source name args => do
    let s ← source.eval
    createNode (.invocation name) (s :: (← evalOperands args))
  | .valueAt source key => do
    let s ← source.eval
    let k ← key.eval
    createNode .valueAt [s, k]
  | .combine fn args => do createNode (.combination fn) (← evalOperands args)

def evalOperands : List Operand → Action (List Value)
  | [] => pure []
  | o :: rest => do
    let v ← o.eval
    return v :: (← evalOperands rest)

end

/-- A value as a handler of events: one that can be called, or its method for handling. -/
def handlerOf (v : Value) : Action Value := do
  if (← get).isCallable v then pure v
  else
    let handle := (← getAttribute? v "handle").getD .null
    let w ← get
    if w.isCallable handle then pure handle else throw (.notAHandler (w.typeName v))

def Handler.eval : Handler → Action Value
  | .named name => listenerNamed name
  | .term t => t.eval
  | .ignoreEvent inner => do createFunction (.adapter (← inner.eval) true)
  | .ignoreChange inner => do createFunction (.adapter (← inner.eval) false)
  | .asHandler t => do handlerOf (← t.eval)

end Fxml.Live
