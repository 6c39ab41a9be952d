import Fxml.Path
import Fxml.Planning.State

/-! The static types of nodes and expressions. -/

namespace Fxml.Planning

/-- The type of a tag with its description; a problem is reported at `pos`. -/
def resolveTag (tag : String) (pos : Position) : Planning (Option (String × TypeDescriptor)) := do
  let context ← read
  match context.types.resolveType tag context.document.imports with
  | .error ambiguous =>
    report (.ambiguousType tag ambiguous.candidates) pos
    return none
  | .ok found =>
    match found.bind fun name => (context.types.describe name).map (name, ·) with
    | some described => return some described
    | none =>
      report (.unknownType tag) pos
      return none

/-- The document behind a node that includes one. It is looked up once. -/
def includeTarget (node : Node) (source : String) : Planning (Option IncludeTarget) := do
  match (← get).includes.lookup node.order with
  | some target => return target
  | none =>
    let context ← read
    let target ← match context.loader with
      | none =>
        report (.noIncludeLoader source) node.pos
        pure none
      | some load =>
        match ← load (Path.resolve context.document.path source) with
        | .ok target => pure (some target)
        | .error fault =>
          report (.failedInclude fault) node.pos
          pure none
    modify fun s => { s with includes := (node.order, target) :: s.includes }
    return target

/-- The type that an object's element produces. A factory produces what it declares if that is
known, else its own type.
-/
def objectType (origin : Origin) (tag : String) (pos : Position) : Planning (Option String) := do
  match ← resolveTag tag pos with
  | none => return none
  | some (type, d) =>
    match origin with
    | .factory method =>
      match d.factories.get? method with
      | none =>
        report (.noFactory type method) pos
        return none
      | some produced =>
        let known := produced != "object" && (← describe produced).isSome
        return some (if known then produced else type)
    | _ => return some type

/-- The type of a static constant: as declared, or the enumeration that it is a member of. -/
def constantType (tag name : String) (pos : Position) : Planning (Option String) := do
  match ← resolveTag tag pos with
  | none => return none
  | some (type, d) =>
    match d.constants.get? name with
    | some declared => return some declared
    | none =>
      if d.members.contains name then return some type
      report (.noConstant type name) pos
      return none

def noteType (node : Node) (type : Option String) : Planning Unit :=
  modify fun s => { s with types := (node.order, type) :: s.types }

/-- The type of the value that a node produces. It is found out once, so problems are reported once.
A copy or reference has the type of its source; `depth` bounds how many of them are followed, and
the number of ids is enough since a node that is being found out has no type.
-/
def typeWithin : Nat → Node → Planning (Option String)
  | 0, _ => return none
  | depth + 1, node => do
    match (← get).types.lookup node.order with
    | some known => return known
    | none =>
      noteType node none
      let type ← match node with
        | .object pos _ origin tag .. => objectType origin tag pos
        | .constant pos _ tag name _ => constantType tag name pos
        | .reference _ _ source | .copy _ _ source _ =>
          match ← entry? source with
          | some entry => typeWithin depth entry.node
          | none => pure none
        | .inclusion _ _ source _ _ =>
          pure ((← includeTarget node source).map (·.rootType))
        | _ => pure none
      noteType node type
      return type

def typeOf (node : Node) : Planning (Option String) := do
  typeWithin ((← read).registry.length + 2) node

def literalType : Scalar → Option String
  | .null => none
  | .bool _ => some "bool"
  | .int _ => some "int"
  | .float _ => some "float"
  | .text _ => some "str"

def isComparison : BinaryOp → Bool
  | .or | .and | .eq | .ne | .lt | .le | .gt | .ge => true
  | _ => false

/-- The type of an expression as far as it is known. -/
def staticType : Expr → Planning (Option String)
  | .const _ value => return literalType value
  | .halves _ _ => return some "str"
  | .ref _ name => do
    if name = Expr.controllerName then return (← read).controller.map (·.name)
    match ← entry? name with
    | some entry => typeOf entry.node
    | none => return none
  | .path _ target name => do
    match ← staticType target with
    | none => return none
    | some owner => return ((← describe owner).bind (·.properties.get? name)).map (·.type)
  | .list .. => return some "list[object]"
  | .map .. => return some "dict[object, object]"
  | .unary _ .not _ => return some "bool"
  | .binary _ op left right => do
    if isComparison op then return some "bool"
    if op = .add then
      let leftType ← staticType left
      let rightType ← staticType right
      if leftType = some "str" || rightType = some "str" then return some "str"
    return none
  | _ => return none

/-- Reports the ids of an expression that are not declared; whether there is none. -/
def checkReferences (e : Expr) : Planning Bool := do
  let registry := (← read).registry
  let unknown := e.references.filter fun r => !r.isController && !registry.contains r.name
  for r in unknown do
    report (.unknownId r.name) r.pos
  return unknown.isEmpty

/-- Warns when an expression's known type cannot be stored; whether it is unknown or can be. -/
def checkStaticType (target : String) (e : Expr) (pos : Position) : Planning Bool := do
  match ← staticType e with
  | none => return true
  | some type =>
    if ← isAssignable target type then return true
    report (.expressionMismatch type target) pos
    return false

end Fxml.Planning
