import Fxml.Live.Arithmetic
import Fxml.Live.Coercion

/-! What the functions of bound expressions compute. -/

namespace Fxml.Live

/-- The sum; when either operand is a text, their texts one after the other. -/
def add (a b : Value) : Action Value := do
  let w ← get
  if w.isOf a .text || w.isOf b .text then
    let left ← coerce a (.basicType .text)
    applyBinary .add left (← coerce b (.basicType .text))
  else applyBinary .add a b

def alternating (entries : List Entry) : List Value → Action (List Entry)
  | [] => pure entries
  | [_] => throw .noIndex
  | key :: value :: rest => do alternating (← putEntry entries key value) rest

/-- Whether both values count as true; the second is asked only if the first does. -/
def bothTrue (a b : Value) : Action Bool := do
  if ← truth a then truth b else return false

/-- Whether a value counts as true; the second is asked only if the first does not. -/
def eitherTrue (a b : Value) : Action Bool := do
  if ← truth a then return true else truth b

def Operator.apply (fn : Operator) (values : List Value) : Action Value := do
  match fn, values with
  | .add, [a, b] => Live.add a b
  | .subtract, [a, b] => applyBinary .subtract a b
  | .multiply, [a, b] => applyBinary .multiply a b
  | .divide, [a, b] => applyBinary .divide a b
  | .modulo, [a, b] => applyBinary .modulo a b
  | .negate, [a] => Live.negate a
  | .equal, [a, b] => relate .equal a b
  | .notEqual, [a, b] => relate .notEqual a b
  | .less, [a, b] => relate .less a b
  | .lessEqual, [a, b] => relate .lessEqual a b
  | .greater, [a, b] => relate .greater a b
  | .greaterEqual, [a, b] => relate .greaterEqual a b
  | .invert, [a] => return .bool !(← truth a)
  | .both, [a, b] => return .bool (← bothTrue a b)
  | .either, [a, b] => return .bool (← eitherTrue a b)
  | .makeList, items => createList items
  | .makeMap, items => do createDict (← alternating [] items)
  | _, _ => throw .wrongType

/-! Nodes of bound expressions. A node listens to its operands, and to the property or list that it
reads through them, and is computed again at once when one of these changes.
-/

def requireNode (v : Value) : Action (ObjectId × Node) := do
  match v, (← get).body? v with
  | .object id, some (.node n) => pure (id, n)
  | _, _ => throw .noAttribute

def reactionOf (node : Value) : Value := .method node (.builtin ⟨.computed, "_invalidate"⟩) 0

def watch (node : Value) (watched : Option ObjectId) : Action Unit := do
  let (id, n) ← requireNode node
  if n.watched == watched then pure ()
  else
    match n.watched with
    | some old => removeListener (.object old) (reactionOf node)
    | none => pure ()
    setBody id (.node { n with watched := watched })
    match watched with
    | some new => addListener (.object new) (reactionOf node)
    | none => pure ()

def selectedProperty (source : Value) (name : String) : Action (Option ObjectId) := do
  if source.isNull || (← get).isOf source .dict then return none
  let found ← try some <$> propertyOf source name
    catch e => if e.isOfAttribute then pure none else throw e
  match found with
  | some (.object id) => return some id
  | _ => return none

/-- The element of a value at a key. A whole number that is no position gives nothing. -/
def elementAt (source key : Value) : Action Value := do
  let w ← get
  if source.isNull then return .null
  else if w.isOf source .dict then valueOrNull source key
  else
    match w.whole? key with
    | some index =>
      let size ← sizeOf source
      if 0 ≤ index && index < size then itemAt source key else return .null
    | none => itemAt source key

def World.watchedList? (w : World) (v : Value) : Option ObjectId :=
  match v with
  | .object id => if w.isOf v .observableList then some id else none
  | _ => none

def compute (node : Value) : Action Value := do
  let (_, n) ← requireNode node
  match n.kind, n.operands with
  | .selection name, [source] =>
    let object ← unwrap source
    watch node (← selectedProperty object name)
    read object name
  | .invocation name, source :: args =>
    let object ← unwrap source
    if object.isNull then pure .null
    else
      let values ← args.mapM unwrap
      callMethod object name values
  | .valueAt, [source, key] =>
    let object ← unwrap source
    let index ← unwrap key
    watch node ((← get).watchedList? object)
    elementAt object index
  | .combination fn, operands => do fn.apply (← operands.mapM unwrap)
  | _, _ => throw .wrongType

def setNodeValue (node value : Value) : Action Unit := do
  let (id, n) ← requireNode node
  setBody id (.node { n with value := some value })

def recompute (node : Value) : Action Unit := do
  let old ← currentValue node
  let new ← compute node
  setNodeValue node new
  announce node old new

/-- Adds a node, which listens to its operands from the start, and computes it. -/
def createNode (kind : NodeKind) (operands : List Value) : Action Value := do
  let listeners ← create ⟨.basic .list, .list [], [], none⟩
  let node := .object (← create
    ⟨.basic kind.type, .node ⟨kind, operands, none, none⟩, [], some listeners⟩)
  let w ← get
  (operands.filter w.isObservable).forM (addListener · (reactionOf node))
  setNodeValue node (← compute node)
  pure node

end Fxml.Live
