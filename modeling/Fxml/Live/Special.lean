import Fxml.Live.Builder
import Fxml.Live.NumberMethod

/-! The special operations that basic types provide, called by name. -/

namespace Fxml.Live

def iteratorKind (w : World) (v : Value) : IteratorKind :=
  match w.text? v, w.body? v with
  | some s, none => if s.toList.all (·.toNat < 128) then .asciiText else .text
  | some _, some _ => .text
  | none, some (.list _) => .list
  | none, some (.tuple _) => .tuple
  | none, some (.view .values _) => .values
  | none, some (.view .items _) => .items
  | none, some _ => .keys
  | none, none => .members

/-- An iterator over a value of a basic kind; an iterator is its own. -/
def iterateBasic (v : Value) : Action Value := do
  let w ← get
  match w.body? v with
  | some (.iterator _) => pure v
  | _ => match ← basicElements? v with
    | some items => createIterator (iteratorKind w v) items
    | none => throw .wrongType

def codeNumber (v : Value) : Action Value := do
  match ← codeOf v with
  | .number n => createInt n
  | .object id => createInt (16 * id)
  | _ => return .small 0

/-- What every value answers about a relation: it equals only itself, and inequality is the opposite of
what its type says about equality.
-/
def plainAnswer (r : Relation) (a b : Value) : Action Value := do
  if r == .notEqual then
    let answer ← answerRelation matching (relate .equal) .equal a b
    if answer.isNotImplemented then pure answer else return .bool !(← truth answer)
  else return identityRelation r a b

/-- What a value of a basic kind answers about a relation. A whole number leaves it to a floating-point
number to compare them.
-/
def basicAnswer (owner : BasicType) (r : Relation) (a b : Value) : Action Value := do
  match owner, (← get).amount? b with
  | .integer, some (.real _) => pure .notImplemented
  | .object, _ => plainAnswer r a b
  | _, _ => basicRelation matching (relate r) r a b

def basicShown (v : Value) : Action String := do
  match v, (← get).object? v with
  | .object id, some o => objectText shown id o
  | _, _ => shown v

/-- The text that a value is written as by its basic type: what shows it, unless it is a text. -/
def basicDisplay (owner : BasicType) (v : Value) : Action Value := do
  let w ← get
  match owner, w.text? v with
  | .text, some s => match v with
    | .scalar _ _ => pure v
    | _ => createText s
  | .enumeration, _ => do
    createText (w.typeName v ++ "." ++ (← requireText ((w.own? v "_name_").getD .null)))
  | _, _ => match ← callOverride? v "__repr__" [] with
    | some result => pure result
    | none => do createText (← basicShown v)

def deleteAttribute (v : Value) (name : String) : Action Unit := do
  match v, (← get).object? v with
  | .object id, some o =>
    if o.attrs.contains name then setObject id { o with attrs := o.attrs.erase name }
    else throw .noAttribute
  | _, _ => throw .noAttribute

def requireSequence (result : Option Value) : Action Value :=
  match result with
  | some v => pure v
  | none => throw .wrongType

/-- Calls a special operation that many basic types share; `none` when it is none of them. -/
def callShared? (owner : BasicType) (self : Value) (name : String) (args : List Value)
    : Action (Option Value) := do
  match Relation.ofName? name, args with
  | some r, [other] => some <$> basicAnswer owner r self other
  | some _, _ => throw .wrongType
  | none, _ => match name, args with
    | "__repr__", [] => do some <$> createText (← basicShown self)
    | "__str__", [] => some <$> basicDisplay owner self
    | "__hash__", [] => some <$> codeNumber self
    | "__len__", [] => match (← get).size? self with
      | some n => some <$> createInt n
      | none => throw .wrongType
    | "__contains__", [item] => do
      match ← basicHolds? self item with
      | some found => return some (.bool found)
      | none => return some (.bool (← standsInElements item self))
    | "__getitem__", [key] => some <$> basicItem self key
    | "__iter__", [] => some <$> iterateBasic self
    | "__getattribute__", [name] => do some <$> plainAttribute self (← requireText name)
    | "__setattr__", [name, value] => do
      match self with
      | .type t => setTypeAttribute t (← requireText name) value
      | _ => setValueAttribute self (← requireText name) value
      return some .null
    | "__delattr__", [name] => do
      deleteAttribute self (← requireText name)
      return some .null
    | _, _ => return none

def callSequenceSlot? (self : Value) (name : String) (args : List Value) : Action (Option Value) := do
  match name, args with
  | "__add__", [other] => do some <$> requireSequence (← joined? self other)
  | "__mul__", [count] | "__rmul__", [count] => do
    some <$> requireSequence (← repeated? self count)
  | _, _ => return none

def callObjectMethod (self : Value) (name : String) (args : List Value) : Action Value := do
  match name, args with
  | "__init__", args => do initializeBasic .object self args; return .null
  | "__format__", [layout] => do createChars (← layOutPlain self (← requireText layout).toList)
  | "__sizeof__", [] => return .small 16
  | "__dir__", [] => createList []
  | "__getstate__", [] => do
    let contents ← ownContents self
    if contents.isEmpty then return .null else createDict (tableEntries contents)
  | _, _ => throw .wrongType

def callTypeMethod (t : TypeRef) (name : String) (args : List Value) : Action Value := do
  let w ← get
  match name, args with
  | "__call__", args => construct t args
  | "mro", [] => createList ((w.order t).map .type)
  | "__instancecheck__", [v] => return .bool (w.refines (w.typeOf v) t)
  | "__subclasscheck__", [.type u] => return .bool (w.refines u t)
  | "__subclasses__", [] =>
    let derived := (List.range w.classes.size).filter fun cls =>
      ((w.class? cls).map (·.bases.contains t)).getD false
    createList (derived.map fun cls => .type (.made cls))
  | _, _ => throw .wrongType

def callEnumTypeMethod (t : TypeRef) (name : String) (args : List Value) : Action Value := do
  let w ← get
  let members := (w.enumMembers? (.type t)).getD []
  match name, args with
  | "__call__", args => construct t args
  | "__bool__", [] => return .bool true
  | "__reversed__", [] => createIterator .members members.values.reverse
  | "__getattr__", [name] => do
    match members.get? (← requireText name) with
    | some member => pure member
    | none => throw .noAttribute
  | "__dir__", [] => createList []
  | _, _ => throw .wrongType

def callForNonMember (self : Value) (name : String) (args : List Value) : Action Value := do
  match name, args with
  | "__init__", _ => return .null
  | "__copy__", [] | "__deepcopy__", [_] => pure self
  | "__format__", [layout] => do
    createChars (← layOutPlain (← displayValue self) (← requireText layout).toList)
  | "__repr__", [] | "__str__", [] | "__hash__", [] => throw .noAttribute
  | _, _ => throw .wrongType

def callEnumerationMethod (self : Value) (name : String) (args : List Value) : Action Value := do
  match name, args with
  | "__init__", _ => return .null
  | "__copy__", [] | "__deepcopy__", [_] => pure self
  | "__format__", [layout] => do createChars (← layOutPlain self (← requireText layout).toList)
  | "__dir__", [] => createList []
  | _, _ => throw .wrongType

def callProvided (owner : BasicType) (self : Value) (name : String) (args : List Value)
    : Action Value := do
  let w ← get
  if owner == .enumeration && !w.isOf self .enumeration then callForNonMember self name args
  else match ← callShared? owner self name args with
  | some result => pure result
  | none => match owner, self, w.body? self with
    | .object, _, _ => callObjectMethod self name args
    | .type, .type t, _ => callTypeMethod t name args
    | .enumType, .type t, _ => callEnumTypeMethod t name args
    | .enumeration, _, _ => callEnumerationMethod self name args
    | .integer, _, _ | .number, _, _ | .boolean, _, _ => match w.amount? self with
      | some a => callNumberMethod self a name args
      | none => throw .wrongType
    | .text, _, _ => match w.text? self with
      | some s =>
        if name == "__mod__" || name == "__rmod__" then
          match args with
          | [other] => match if name == "__mod__" then some s else w.text? other with
            | some template => do
              createChars (← fillTemplate template (if name == "__mod__" then other else self))
            | none => pure .notImplemented
          | _ => throw .wrongType
        else match ← callSequenceSlot? self name args with
          | some result => pure result
          | none => callTextMethod self s name args
      | none => throw .wrongType
    | .list, _, _ => match ← callSequenceSlot? self name args with
      | some result => pure result
      | none => callListMethod self name args
    | .tuple, _, some (.tuple items) => match ← callSequenceSlot? self name args with
      | some result => pure result
      | none => callTupleMethod self items name args
    | .dict, _, _ => match name, args with
      | "__setitem__", [key, value] => do putKey self key value; return .null
      | "__delitem__", [key] => do
        if (← takeKey? self key).isNone then throw .noKey
        return .null
      | _, _ => callDictMethod self name args
    | .mapping, _, some (.dict entries) => match name, args with
      | "copy", [] => createDict entries
      | _, _ => callDictMethod self name args
    | .bytes, _, some (.bytes data) => callBytesMethod data name args
    | .view kind, _, some (.view _ dict) => callViewMethod kind dict name args
    | .iterator _, .object id, some (.iterator rest) => callIteratorMethod id rest name args
    | .null, _, _ => match name, args with
      | "__bool__", [] => return .bool false
      | _, _ => throw .wrongType
    | _, _, _ => match name with
      | "__call__" => call self args
      | _ => throw .wrongType

end Fxml.Live
