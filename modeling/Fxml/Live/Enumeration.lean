import Fxml.Live.Field

/-! The order in which the names of a class are looked up: every class stands before its bases, and
bases keep their order.
-/

namespace Fxml.Live

def chosenHead? (sequences : List (List TypeRef)) : Option TypeRef :=
  (sequences.filterMap List.head?).find? fun h => sequences.all fun s => !(s.drop 1).contains h

def dropHead (h : TypeRef) (sequences : List (List TypeRef)) : List (List TypeRef) :=
  (sequences.map fun s => if s.head? = some h then s.drop 1 else s).filter (!·.isEmpty)

/-- Takes the chosen head of sequences over and over; `none` when every head stands in some tail. -/
def mergeOrders? : Nat → List (List TypeRef) → Option (List TypeRef)
  | 0, _ => none
  | fuel + 1, sequences =>
    if sequences.isEmpty then some []
    else match chosenHead? sequences with
      | some h => (mergeOrders? fuel (dropHead h sequences)).map (h :: ·)
      | none => none

def World.orderWith? (w : World) (cls : ClassId) (bases : List TypeRef) : Option (List TypeRef) :=
  let sequences := (bases.map w.order ++ [bases]).filter (!·.isEmpty)
  (mergeOrders? (sequences.flatten.length + 1) sequences).map (.made cls :: ·)

/-- Whether values of a class with bases can hold what values of the bases hold: the bases differ, can
be refined, and all but one hold nothing of their own.
-/
def World.areBases (w : World) (bases : List TypeRef) : Bool :=
  let cores := (bases.filterMap w.coreOf?).eraseDups
  bases.eraseDups.length == bases.length && cores.length ≤ 1 && bases.all fun
    | .basic t => t.isRefinable
    | .made _ => true

end Fxml.Live

/-! Enumerations. Their members have the positions of their names as values. Some names are kept for
what every enumeration has and are no members.
-/

namespace Fxml.Live

inductive EnumName where
  | member
  | attr
  | order
  | reserved
  | unusable
deriving DecidableEq

namespace EnumName

/-- Whether a name begins and ends with `count` underscores and holds more than them. -/
def isBetween (count : Nat) (name : List Char) : Bool :=
  let inner := (name.drop count).take (name.length - 2 * count)
  let edge := List.replicate count '_'
  2 * count < name.length && name.take count == edge && name.reverse.take count == edge
    && inner.head? != some '_' && inner.getLast? != some '_'

def isPrivate (type name : List Char) : Bool :=
  let start := '_' :: type ++ ['_', '_']
  start.length < name.length && start.isPrefixOf name && name.reverse.take 2 != ['_', '_']

def definable : List String :=
  ["_generate_next_value_", "_numeric_repr_", "_missing_", "_iter_member_",
    "_iter_member_by_value_", "_iter_member_by_def_"]

def ofName (type name : String) : EnumName :=
  let cs := name.toList
  if isPrivate type.toList cs then attr
  else if name == "_order_" || name == "__order__" then order
  else if name == "_ignore_" then unusable
  else if isBetween 1 cs then if definable.contains name then attr else reserved
  else if isBetween 2 cs then
    if ["__slots__", "__qualname__", "__classcell__"].contains name then unusable else attr
  else member

end EnumName

/-- The attributes of an enumeration by which its members are made. -/
def makingNames : List String := ["__init__", "__new__", "__setattr__", "__getattribute__", "__getattr__"]

def checkNames (type : String) (names : List String) : Except Error Unit := do
  let kinds := names.map fun name => (name, EnumName.ofName type name)
  let members := kinds.filterMap fun (name, kind) => if kind == .member then some name else none
  let rec inOrder : List (String × EnumName) → List String → Except Error Unit
    | [], _ => pure ()
    | (name, kind) :: rest, seen =>
      if kind == .reserved then throw .wrongValue
      else if name == "_ignore_" then throw .wrongType
      else if kind == .member then
        if seen.contains name then throw .wrongType else inOrder rest (name :: seen)
      else inOrder rest seen
  inOrder kinds []
  if members.contains "mro" || members.contains "" then throw .wrongValue
  if kinds.any fun (_, kind) => kind == .unusable then throw .wrongType
  if !members.isEmpty && names.any makingNames.contains then throw .wrongType
  let orders := kinds.zipIdx.filterMap fun ((_, kind), i) => if kind == .order then some i else none
  if (orders.getLast?.getD 0) != 0 then throw .wrongType

/-- The members of a class with what every class has: one that says what is equal has no codes unless it
says which.
-/
def completed (members : Table Value) : Table Value :=
  let members := if members.contains "__doc__" then members else members.put "__doc__" .null
  if members.contains "__eq__" && !members.contains "__hash__" then members.put "__hash__" .null
  else members

def createMember (t : TypeRef) (name : String) (position : Nat) (order : Nat) : Action Value := do
  let value ← createInt position
  return .object (← create ⟨t, .plain,
    [("_value_", value), ("_name_", nameValue name), ("__objclass__", .type t),
      ("_sort_order_", ← createInt order)], none⟩)

def declareEnum (name : String) (names : List String) : Action Unit := do
  liftResult (checkNames name names)
  let w ← get
  let cls := w.classes.size
  let t := .made cls
  let bases := [.basic .enumeration]
  let kinds := names.zipIdx.map fun (n, i) => (n, i, EnumName.ofName name n)
  let named := kinds.filter fun (_, _, kind) => kind == .member
  let members ← named.zipIdx.mapM fun ((n, i, _), order) => do
    return (n, ← createMember t n i order)
  let attrs ← (kinds.filter fun (_, _, kind) => kind == .attr).mapM fun (n, i, _) => do
    return (n, ← createInt i)
  let visible := members.filter fun (n, _) => n != "name" && n != "value"
  modify fun w => { w with
    classes := w.classes.push
      ⟨name, bases, t :: w.order (.basic .enumeration), completed (Table.ofList (attrs ++ visible)),
        some (Table.ofList members)⟩
    types := w.types.put name t }

end Fxml.Live
