import Fxml.Code.Basic
import Fxml.Diagnostic
import Fxml.Naming.Style
import Fxml.Plan.Basic
import Fxml.Types.Descriptor

/-! Why no code can be generated from a plan. -/

namespace Fxml.Code

inductive Cause where
  | noModule (type : String)
  | notImported (module : String)
  | unknownInOrder (var : String)
  | rootNotBuilt (var : String)
  | bindingNotBuilt (var : String)
  | unknownElement (var : String)
  | usedBeforeBuilt (var : String)
  | unresolved (id : String)
  | noConstruction (strategy : Strategy)
  | unknownStep (kind : StepKind)
  | handlerExpected
  | noValue
  | notAnExpression (value : Value)
  | notBindable (value : Value)

def formName : Value → String
  | .text .. => "Text"
  | .location .. => "Location"
  | .resource .. => "Resource"
  | .binding .. => "Binding"
  | .method .. => "MethodRef"
  | .once _ => "Expr"

def Cause.message : Cause → String
  | noModule type => "type " ++ type ++ " has no imported module"
  | notImported module => "included module " ++ module ++ " is not imported"
  | unknownInOrder var => "construction order names unknown element " ++ var
  | rootNotBuilt var => "root element " ++ var ++ " was never constructed"
  | bindingNotBuilt var => "binding target " ++ var ++ " was never constructed"
  | unknownElement var => "reference to unknown element " ++ var
  | usedBeforeBuilt var => var ++ " is used before it is constructed"
  | unresolved id => "unresolved reference to '" ++ id ++ "'"
  | noConstruction strategy => "no construction for strategy " ++ strategy.name
  | unknownStep kind => "unknown assignment kind " ++ kind.name
  | handlerExpected => "handler value expected"
  | noValue => "cannot emit value Value"
  | notAnExpression value => "cannot emit expression " ++ formName value
  | notBindable value => "cannot bind expression " ++ formName value

inductive Error where
  | violation (cause : Cause) (pos : Position)
  /-- The element that the plan calls its root is not among its elements. -/
  | noRoot
  /-- A part is missing that an element's strategy or a step's kind needs. -/
  | noPart

def Error.toFault? : Error → Option Fault
  | violation cause pos => some ⟨.generationInvariantViolation, cause.message, pos⟩
  | _ => none

/-! Code from plans: one builder class per document. The method of the class makes the objects in
construction order, then binds properties, and runs the controller's hook last. -/

/-- What is known while code is generated: the plan, its imports, and the variables that are
assigned already.
-/
structure Scope where
  plan : Plan
  imports : List ImportLine
  built : List String := []

abbrev Emit := Except Error

def violation {α : Type} (cause : Cause) (pos : Position) : Emit α :=
  .error (.violation cause pos)

def localNames (p : Plan) : List String :=
  p.elements.values.flatMap fun e =>
    e.var :: (e.builderVar.toList ++ (e.inclusion.map (·.builderVar)).toList)

/-- The imports of a plan in the order of their names. A module whose first part is the name of a
variable gets another name.
-/
def importLines (p : Plan) : List ImportLine :=
  let locals := localNames p
  (p.modules.mergeSort fun a b => decide (a ≤ b)).map fun module =>
    if locals.contains (Naming.firstPart module) then
      ⟨module, some ("_" ++ module.map fun c => if c = '.' then '_' else c)⟩
    else ⟨module, none⟩

namespace Scope

def moduleReference? (s : Scope) (module : String) : Option String :=
  (s.imports.find? (·.module == module)).map (·.reference)

def typeTerm (s : Scope) (type : String) (pos : Position) : Emit Term :=
  if TypeName.isPrimitive type then .ok (.global type)
  else if (TypeName.listItem? type).isSome then .ok (.global "list")
  else if (TypeName.mapTypes? type).isSome then .ok (.global "dict")
  else
    match s.plan.moduleOf.get? type with
    | none => violation (.noModule type) pos
    | some module =>
      match s.moduleReference? module with
      | none => violation (.noModule type) pos
      | some reference =>
        let inner := String.ofList (type.toList.drop (module.length + 1))
        .ok (.global (reference ++ "." ++ inner))

/-- The term that names a type which an element or step must have. -/
def ownerTerm (s : Scope) (type : Option String) (pos : Position) : Emit Term :=
  match type with
  | some type => s.typeTerm type pos
  | none => .error .noPart

/-- The variable of an element, which must be assigned already. -/
def elementTerm (s : Scope) (var : String) (pos : Position) : Emit Term :=
  if !s.plan.elements.contains var then violation (.unknownElement var) pos
  else if !s.built.contains var then violation (.usedBeforeBuilt var) pos
  else .ok (.var var)

def referenceTerm (s : Scope) (name : String) (pos : Position) : Emit Term :=
  if name = Expr.controllerName then .ok (.var "controller")
  else
    match s.plan.registry.get? name with
    | none => violation (.unresolved name) pos
    | some var => s.elementTerm var pos

mutual

/-- An expression that is evaluated once. Addition joins texts, so it is a function. -/
def exprTerm (s : Scope) : Expr → Emit Term
  | .const _ value => .ok (.literal value)
  | .halves _ value => .ok (.halves value)
  | .ref pos name => s.referenceTerm name pos
  | .path _ target name => return .attr (← exprTerm s target) name
  | .call _ target name args => do
    let args ← exprTerms s args
    return .call (.attr (← exprTerm s target) name) args
  | .index _ target key => do
    let target ← exprTerm s target
    return .index target (← exprTerm s key)
  | .list _ items => return .list (← exprTerms s items)
  | .map _ entries => return .map (← exprEntries s entries)
  | .unary _ op operand => return .unary op (← exprTerm s operand)
  | .binary _ op left right => do
    let left ← exprTerm s left
    let right ← exprTerm s right
    return if op = .add then .call (.support "add") [left, right] else .binary op left right

def exprTerms (s : Scope) : List Expr → Emit (List Term)
  | [] => .ok []
  | e :: rest => do
    let t ← exprTerm s e
    return t :: (← exprTerms s rest)

def exprEntries (s : Scope) : List (Expr × Expr) → Emit (List (Term × Term))
  | [] => .ok []
  | (key, value) :: rest => do
    let key ← exprTerm s key
    let value ← exprTerm s value
    return (key, value) :: (← exprEntries s rest)

end

/-- The function of the support library that stands for an operator in a bound expression. -/
def operatorName : BinaryOp → String
  | .add => "add"
  | .sub => "subtract"
  | .mul => "multiply"
  | .div => "divide"
  | .mod => "modulo"
  | .eq => "equal"
  | .ne => "not_equal"
  | .lt => "less"
  | .le => "less_equal"
  | .gt => "greater"
  | .ge => "greater_equal"
  | .and => "both"
  | .or => "either"

def combined (name : String) (operands : List Term) : Term :=
  .call (.support "combine") (.support name :: operands)

mutual

def observedTerm (s : Scope) : Expr → Emit Term
  | .const _ value => .ok (.literal value)
  | .halves _ value => .ok (.halves value)
  | .ref pos name => s.referenceTerm name pos
  | .path _ target name => return .call (.support "select") [← observedTerm s target, .string name]
  | .call _ target name args => do
    let target ← observedTerm s target
    return .call (.support "call") (target :: .string name :: (← observedTerms s args))
  | .index _ target key => do
    let target ← observedTerm s target
    return .call (.support "value_at") [target, ← observedTerm s key]
  | .list _ items => return combined "make_list" (← observedTerms s items)
  | .map _ entries => return combined "make_map" (← observedEntries s entries)
  | .unary _ op operand => do
    let operand ← observedTerm s operand
    return combined (if op = .not then "invert" else "negate") [operand]
  | .binary _ op left right => do
    let left ← observedTerm s left
    let right ← observedTerm s right
    return combined (operatorName op) [left, right]

def observedTerms (s : Scope) : List Expr → Emit (List Term)
  | [] => .ok []
  | e :: rest => do
    let t ← observedTerm s e
    return t :: (← observedTerms s rest)

def observedEntries (s : Scope) : List (Expr × Expr) → Emit (List Term)
  | [] => .ok []
  | (key, value) :: rest => do
    let key ← observedTerm s key
    let value ← observedTerm s value
    return key :: value :: (← observedEntries s rest)

end

def convertedTerm (s : Scope) (term : Term) (type : Option String) (pos : Position) : Emit Term :=
  match type with
  | none => .ok term
  | some type => return .call (.support "coerce") [term, ← s.typeTerm type pos]

/-- A method of the controller; one that takes no argument is adapted. -/
def methodTerm (adapter name : String) (arity : Nat) : Term :=
  let method := .attr (.var "controller") name
  if arity = 0 then .call (.support adapter) [method] else method

def ignoreEvent : String := "ignore_event"

def ignoreChange : String := "ignore_change"

mutual

def sourceTerm (s : Scope) : Source → Emit Term
  | .literal _ value => .ok (.literal value)
  | .list _ items => return .list (← sourceTerms s items)
  | .member pos type name | .constant pos type name => return .attr (← s.typeTerm type pos) name
  | .parsed pos type text =>
    return .call (.attr (← s.typeTerm type pos) "value_of") [.string text]
  | .element pos var => s.elementTerm var pos
  | .expr pos (.once e) type => do s.convertedTerm (← s.exprTerm e) type pos
  | .expr _ value _ => violation (.notAnExpression value) value.pos
  | .resource pos key type =>
    s.convertedTerm (.call (.support "get_string") [.var "resources", .string key]) type pos
  | .location _ path =>
    .ok (.call (.support "resolve_location") [.attr (.var "self") "location", .string path])
  | .method _ name arity => .ok (methodTerm ignoreEvent name arity)
  | .handler _ source => return .call (.support "as_handler") [← sourceTerm s source]
  | .absent pos => violation .noValue pos

def sourceTerms (s : Scope) : List Source → Emit (List Term)
  | [] => .ok []
  | source :: rest => do
    let t ← sourceTerm s source
    return t :: (← sourceTerms s rest)

end

def ownSourceTerm (s : Scope) (e : Element) : Emit Term :=
  match e.source with
  | some source => s.sourceTerm source
  | none => .error .noPart

def handlerTerm (s : Scope) (adapter : String) : Source → Emit Term
  | .method _ name arity => .ok (methodTerm adapter name arity)
  | .handler pos source => s.sourceTerm (.handler pos source)
  | source => violation .handlerExpected source.pos

def argTerms (s : Scope) : List (String × Source) → Emit (List (String × Term))
  | [] => .ok []
  | (name, source) :: rest => do
    let t ← s.sourceTerm source
    return (name, t) :: (← argTerms s rest)

def constructTerm (s : Scope) (e : Element) : Emit Term := do
  match e.strategy with
  | .construct =>
    let args ← s.argTerms e.args
    return .callNamed (← s.typeTerm e.type e.pos) args
  | .text =>
    let type ← s.typeTerm e.type e.pos
    return .call type [← s.ownSourceTerm e]
  | .factory =>
    let owner ← s.ownerTerm e.ownerType e.pos
    return .call (.attr owner (e.member.getD "None")) []
  | .constant =>
    let owner ← s.ownerTerm e.ownerType e.pos
    return .attr owner (e.member.getD "None")
  | .value => s.ownSourceTerm e
  | .copy => return .call (.support "copy_value") [← s.ownSourceTerm e]
  | .root =>
    return .call (.support "require_root") [.var "root", ← s.typeTerm e.type e.pos]
  | strategy => violation (.noConstruction strategy) e.pos

/-- The statements of a builder that takes values before it makes the object. -/
def builderStatements (s : Scope) (e : Element) : Emit (List Statement) := do
  let builder := .var (e.builderVar.getD "None")
  let type ← s.ownerTerm e.builderType e.pos
  let steps ← e.builderSteps.mapM fun step => do
    return .assign (.attr builder step.target) (← s.sourceTerm step.source)
  return .assign builder (.call type []) :: steps
    ++ [.assign (.var e.var) (.call (.attr builder "build") [])]

/-- The statements that build an included document and take over its ids. -/
def inclusionStatements (s : Scope) (e : Element) : Emit (List Statement) :=
  match e.inclusion with
  | none => .error .noPart
  | some i =>
    match s.moduleReference? i.module with
    | none => violation (.notImported i.module) e.pos
    | some module =>
      let builder := .var i.builderVar
      let args := ["resources", "controller_factory"].map fun name => (name, .var name)
      .ok [.assign builder (.call (.global (module ++ "." ++ i.className)) []),
        .assign (.var e.var) (.callNamed (.attr builder "build") args),
        .effect (.call (.attr (.var "self") "merge") [builder, .string i.scope])]

def creationStatements (s : Scope) (e : Element) : Emit (List Statement) := do
  match e.strategy with
  | .builder => s.builderStatements e
  | .inclusion => s.inclusionStatements e
  | _ => return [.assign (.var e.var) (← s.constructTerm e)]

/-- The statements that make an object known: its own id, the namespace, and the controller. -/
def registrationStatements (e : Element) : List Statement :=
  let object := .var e.var
  let controller := .var "controller"
  let namespaced (id : String) : Term := .index (.attr (.var "self") "namespace") (.string id)
  let ownId := if e.setsId then
    [.assign (.attr object "id") (.string (e.id.getD ""))] else []
  let subController := e.inclusion.bind fun i =>
    i.controllerField.map fun field =>
      .assign (.attr controller field) (.attr (.var i.builderVar) "controller")
  ownId ++ e.id.toList.map (fun id => .assign (namespaced id) object)
    ++ e.field.toList.map (fun field => .assign (.attr controller field) object)
    ++ subController.toList

def stepStatement (s : Scope) (var : String) (step : Step) : Emit Statement := do
  let object := .var var
  let target := if step.target = "" then object else .attr object step.target
  match step.kind with
  | .set => return .assign target (← s.sourceTerm step.source)
  | .append => return .effect (.call (.attr target "append") [← s.sourceTerm step.source])
  | .extend => return .effect (.call (.attr target "extend") [← s.sourceTerm step.source])
  | .put =>
    match step.key with
    | none => throw .noPart
    | some key => return .assign (.index target (.string key)) (← s.sourceTerm step.source)
  | .attach =>
    let owner ← s.ownerTerm step.owner step.pos
    let setter := .attr owner ("set_" ++ step.target)
    return .effect (.call setter [object, ← s.sourceTerm step.source])
  | .handler => return .assign target (← s.handlerTerm ignoreEvent step.source)
  | .listener =>
    let handler ← s.handlerTerm ignoreChange step.source
    let property := .call (.support "property_of") [object, .string step.target]
    return .effect (.call (.attr property "add_listener") [handler])
  | .listListener =>
    return .effect (.call (.attr target "add_listener") [← s.handlerTerm ignoreChange step.source])
  | .other _ => violation (.unknownStep step.kind) step.pos

def elementStatements (s : Scope) (e : Element) : Emit (List Statement) := do
  let creation ← s.creationStatements e
  let after := { s with built := e.var :: s.built }
  let steps ← e.steps.mapM (after.stepStatement e.var)
  return creation ++ registrationStatements e ++ steps

def orderStatements (s : Scope) : List String → Emit (List Statement × Scope)
  | [] => .ok ([], s)
  | var :: rest =>
    match s.plan.elements.get? var with
    | none => violation (.unknownInOrder var) .start
    | some e => do
      let statements ← s.elementStatements e
      let (more, last) ← orderStatements { s with built := e.var :: s.built } rest
      return (statements ++ more, last)

/-- The observed source of a binding. A constant or an object stands for itself. -/
def bindingTerm (s : Scope) (value : Value) : Emit Term :=
  match value with
  | .once e => do
    let term ← s.observedTerm e
    match e with
    | .const .. | .halves .. | .ref .. => return .call (.support "constant") [term]
    | _ => return term
  | value => violation (.notBindable value) value.pos

def bindingStatement (s : Scope) (b : Binding) : Emit Statement := do
  unless s.built.contains b.var do violation (.bindingNotBuilt b.var) b.pos
  let source ← s.bindingTerm b.value
  let property := .call (.support "property_of") [.var b.var, .string b.property]
  return .effect (.call (.support "bind") [property, source])

def body (s : Scope) : Emit (List Statement) := do
  let self := .var "self"
  let controller := .var "controller"
  let (elements, s) ← s.orderStatements s.plan.order
  let bindings ← s.plan.bindings.mapM s.bindingStatement
  unless s.built.contains s.plan.rootVar do violation (.rootNotBuilt s.plan.rootVar) .start
  let hasInitialize := s.plan.controller.any (·.hasInitialize)
  let hook := if hasInitialize then
    [.effect (.call (.attr controller "initialize") [])] else []
  return [.assign (.attr self "resources") (.var "resources"),
      .assign controller
        (.call (.attr self "select_controller") [controller, .var "controller_factory"])]
    ++ elements ++ bindings
    ++ [.assign (.attr self "root") (.var s.plan.rootVar)]
    ++ hook ++ [.result (.var s.plan.rootVar)]

def controllerTerm (s : Scope) : Emit Term :=
  match s.plan.controller with
  | none => .ok (.literal .null)
  | some controller =>
    match s.plan.elements.get? s.plan.rootVar with
    | none => .error .noRoot
    | some root => s.typeTerm controller.type root.pos

end Scope

def generate (p : Plan) : Emit Module := do
  let imports := importLines p
  let scope : Scope := { plan := p, imports }
  let controllerType ← scope.controllerTerm
  let body ← scope.body
  return { path := p.path, imports, className := p.className, controllerType
           exports := p.exports, body }

end Fxml.Code
