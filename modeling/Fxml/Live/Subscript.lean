import Fxml.Live.Attribute
import Fxml.Live.ObservableList
import Fxml.Text.Cut

/-! Elements of values by key: positions of sequences, keys of dictionaries, and names of members. -/

namespace Fxml.Live

def sequenceItem (items : List Value) (key : Value) (create : List Value → Action Value)
    : Action Value := do
  match (← get).body? key with
  | some (.slice start stop step) => do
    create ((← stretchOf items.length start stop step).pick items)
  | _ => match (position? items.length (← indexOf key)).bind (items[·]?) with
    | some item => pure item
    | none => throw .noIndex

def textItem (cs : List Char) (key : Value) : Action Value := do
  match (← get).body? key with
  | some (.slice start stop step) => do
    createChars ((← stretchOf cs.length start stop step).pick cs)
  | _ => match (position? cs.length (← indexOf key)).bind (cs[·]?) with
    | some c => createChars [c]
    | none => throw .noIndex

/-- A type with an argument in brackets: the member of an enumeration with a name, or what the type
makes of the argument.
-/
def typeItem (t : TypeRef) (key : Value) : Action Value := do
  let w ← get
  match w.enumMembers? (.type t) with
  | some members => match ← lookup? (tableEntries members) key with
    | some member => pure member
    | none => throw .noKey
  | none =>
    match ← getAttribute? (.type t) "__class_getitem__" with
    | some f => call f [key]
    | none => throw .wrongType

def World.isPositional (w : World) (v : Value) : Bool :=
  match w.typeOf v with
  | .made _ | .basic (.view _) => true
  | .basic t => [.text, .bytes, .list, .tuple, .dict, .mapping, .enumType].contains t
    || (t.isOpen && t != .function)

/-- Fails for a value that has no elements. A key that stands for a position is looked at before. -/
def refuseKey {α : Type} (v key : Value) : Action α := do
  let w ← get
  if w.isPositional v && ((w.whole? key).isSome || w.supports key "__index__") then
    if !fitsWord (← indexOf key) then throw .noIndex
  throw .wrongType

def basicItem (v key : Value) : Action Value := do
  let w ← get
  match v, w.text? v, w.body? v with
  | _, some s, _ => textItem s.toList key
  | .type t, _, _ => typeItem t key
  | _, _, some (.list items) => sequenceItem items key createList
  | _, _, some (.tuple items) => sequenceItem items key createTuple
  | _, _, some (.bytes data) => sequenceItem (data.map fun b => .small b.toNat) key createList
  | _, _, some (.dict _) => valueOfKey v key
  | _, _, _ => refuseKey v key

def basicSetItem (v key value : Value) : Action Unit := do
  let w ← get
  match w.body? v with
  | some (.list _) => setListItem (w.isOf v .observableList) v key value
  | some (.dict _) => if w.isOf v .mapping then throw .wrongType else putKey v key value
  | _ => if w.supports v "__delitem__" then throw .noAttribute else refuseKey v key

def basicDeleteItem (v key : Value) : Action Unit := do
  let w ← get
  match w.body? v with
  | some (.list _) => deleteListItem (w.isOf v .observableList) v key
  | some (.dict _) =>
    if w.isOf v .mapping then throw .wrongType
    else if (← takeKey? v key).isNone then throw .noKey
  | _ => if w.supports v "__setitem__" then throw .noAttribute else refuseKey v key

def itemAt (v key : Value) : Action Value := do
  match ← callOverride? v "__getitem__" [key] with
  | some result => pure result
  | none => basicItem v key

def setItem (v key value : Value) : Action Unit := do
  match ← callOverride? v "__setitem__" [key, value] with
  | some _ => pure ()
  | none => basicSetItem v key value

def deleteItem (v key : Value) : Action Unit := do
  match ← callOverride? v "__delitem__" [key] with
  | some _ => pure ()
  | none => basicDeleteItem v key

/-- Whether a value of a basic kind holds another; `none` when it does not say. -/
def basicHolds? (v item : Value) : Action (Option Bool) := do
  let w ← get
  match w.text? v, w.body? v with
  | some s, _ => match w.text? item with
    | some part => return some (Text.holds part.toList s.toList)
    | none => throw .wrongType
  | none, some (.list items) | none, some (.tuple items) => some <$> standsIn item items
  | none, some (.dict entries) => return some (← entryOf? entries item).isSome
  | none, some (.view .keys dict) =>
    return some (← entryOf? ((w.entries? (.object dict)).getD []) item).isSome
  | _, _ => match w.enumMembers? v with
    | some members =>
      if w.isEnumeration (w.typeOf item) then
        return some (members.values.any (·.identical item))
      else throw .wrongType
    | none => return none

def holds (v item : Value) : Action Bool := do
  match ← callOverride? v "__contains__" [item] with
  | some result => truth result
  | none =>
    let w ← get
    let found ← if w.supports v "__contains__" then basicHolds? v item else pure none
    match found with
    | some b => pure b
    | none => standsInElements item v

def valueOrNull (dict key : Value) : Action Value := do
  match (← get).typeOf dict with
  | .basic _ => return (← lookup? (← requireEntries dict).2 key).getD .null
  | .made _ => callMethod dict "get" [key]

/-- What an expression reads from a value: an attribute, or the value of a key. Nothing is read from
nothing.
-/
def read (v : Value) (name : String) : Action Value := do
  if v.isNull then pure .null
  else if (← get).isOf v .dict then valueOrNull v (nameValue name)
  else getAttribute v name

end Fxml.Live
