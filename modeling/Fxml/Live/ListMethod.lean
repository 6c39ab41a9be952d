import Fxml.Live.TextMethod

/-! Sorting by the order that values have. Values that do not differ stay in their order. -/

namespace Fxml.Live

def standsBefore (a b : Value) : Action Bool := do truth (← relate .less a b)

/-- The place of a value among sorted values, found by halving: after those that do not follow it. -/
def placeWithin (before : Value → Value → Action Bool) (item : Value) (sorted : Array Value)
    : Nat → Nat → Nat → Action Nat
  | 0, low, _ => pure low
  | fuel + 1, low, high => do
    if low < high then
      let middle := (low + high) / 2
      if ← before item (sorted[middle]?.getD .null) then placeWithin before item sorted fuel low middle
      else placeWithin before item sorted fuel (middle + 1) high
    else pure low

def insertSorted (before : Value → Value → Action Bool) (sorted : Array Value)
    : List Value → Action (Array Value)
  | [] => pure sorted
  | item :: rest => do
    let place ← placeWithin before item sorted (sorted.size + 1) 0 sorted.size
    insertSorted before (sorted.insertIdxIfInBounds place item) rest

/-- The values at the front that are in order already; `last` is the one before them. -/
def orderedRun (before : Value → Value → Action Bool) (falling : Bool) (last : Value)
    : List Value → Action (List Value × List Value)
  | [] => pure ([], [])
  | item :: rest => do
    if (← before item last) == falling then
      let (run, after) ← orderedRun before falling item rest
      return (item :: run, after)
    else return ([], item :: rest)

/-- Sorts values: the run at their front stays, or is turned when it falls, and the others are put in
their places.
-/
def sortValues (before : Value → Value → Action Bool) (items : List Value) : Action (List Value) := do
  match items with
  | first :: second :: rest =>
    let falling ← before second first
    let (run, after) ← orderedRun before falling second rest
    let sorted := first :: second :: run
    let start := if falling then sorted.reverse else sorted
    return (← insertSorted before start.toArray after).toList
  | _ => pure items

end Fxml.Live

/-! The methods of lists and tuples. -/

namespace Fxml.Live

def createIterator (kind : IteratorKind) (items : List Value) : Action Value :=
  createBody (.iterator kind) (.iterator items)

/-- The place of a value in a part of a sequence, whose bounds cannot be left out one by one. -/
def placeOf (items : List Value) (value : Value) (bounds : List Value) : Action Value := do
  if bounds.any Value.isNull then throw .wrongType
  let (start, stop) ← partOf items.length bounds
  match ← positionOf? value ((items.take stop).drop start) start with
  | some i => createInt i
  | none => throw .wrongValue

def countOf (items : List Value) (value : Value) : Action Value := do
  createInt (← items.filterM fun item => matching item value).length

def changeList (tells : Bool) (list : Value) (name : String) (args : List Value)
    : Action (Option Value) := do
  match name, args with
  | "append", [item] => do appendItem tells list item; return some .null
  | "extend", [more] => do extendList tells list more; return some .null
  | "insert", [index, item] => do insertItem tells list index item; return some .null
  | "remove", [item] => do removeItem tells list item; return some .null
  | "pop", [] => some <$> popItem tells list (-1)
  | "pop", [index] => do some <$> popItem tells list (← wordIndexOf index)
  | "clear", [] => do clearList tells list; return some .null
  | "__setitem__", [key, value] => do setListItem tells list key value; return some .null
  | "__delitem__", [key] => do deleteListItem tells list key; return some .null
  | "__iadd__", [more] => do extendList tells list more; return some list
  | _, _ => return none

def callListMethod (list : Value) (name : String) (args : List Value) : Action Value := do
  match ← changeList false list name args with
  | some result => pure result
  | none =>
    let (id, items) ← requireItems list
    match name, args with
    | "__init__", [] => do setBody id (.list []); return .null
    | "__init__", [source] => do
      setBody id (.list [])
      setBody id (.list (← listElements source))
      return .null
    | "index", value :: bounds => do
      try placeOf items value bounds
      catch e =>
        if e matches .wrongValue then discard (shown value)
        throw e
    | "count", [value] => countOf items value
    | "copy", [] => createList items
    | "reverse", [] => do setBody id (.list items.reverse); return .null
    | "sort", [] => do setBody id (.list (← sortValues standsBefore items)); return .null
    | "__imul__", [count] => do
      let times ← repetitions items.length (← wordIndexOf count) .tooMuch
      setBody id (.list (List.replicate times items).flatten)
      return list
    | "__reversed__", [] => createIterator .listBackwards items.reverse
    | "__sizeof__", [] => createInt (40 + 8 * items.length)
    | _, _ => throw .wrongType

def callTupleMethod (tuple : Value) (items : List Value) (name : String) (args : List Value)
    : Action Value := do
  match name, args with
  | "index", value :: bounds => placeOf items value bounds
  | "count", [value] => countOf items value
  | "__getnewargs__", [] => createTuple [tuple]
  | _, _ => throw .wrongType

def callBytesMethod (data : List UInt8) (name : String) (args : List Value) : Action Value := do
  match name, args with
  | "hex", [] => createChars (data.flatMap fun b => Text.hexDigits 2 b.toNat)
  | "decode", args => do
    let encoding ← match args with
      | [] => pure "utf-8"
      | name :: _ => requireText name
    match Text.Encoding.ofName? encoding with
    | none => throw .unknownEncoding
    | some .utf8 => match String.fromUTF8? ⟨data.toArray⟩ with
      | some s => createText s
      | none => throw .notDecodable
    | some e => match data.mapM e.decodeByte? with
      | some cs => createChars cs
      | none => throw .notDecodable
  | _, _ => throw .wrongType

/-! The methods of dictionaries, of views of them, and of iterators. -/

def pairOf (v : Value) : Action (Value × Value) := do
  match ← wholeElements v with
  | [key, value] => pure (key, value)
  | _ => throw .wrongValue

/-- Puts the entries of a value into a dictionary: of another dictionary, of a value with keys, or of
a sequence of pairs.
-/
def updateDict (dict source : Value) : Action Unit := do
  let w ← get
  match w.entries? source, w.override? source "__iter__" with
  | some entries, none => entries.forM fun e => putKey dict e.key e.value
  | _, _ =>
    match ← getAttribute? source "keys" with
    | some _ => do
      let keys ← wholeElements (← callMethod source "keys" [])
      keys.forM fun key => do putKey dict key (← itemAt source key)
    | none => do
      forElements source fun item => do
        let (key, value) ← pairOf item
        putKey dict key value

def createView (kind : ViewKind) (dict : ObjectId) : Action Value :=
  createBody (.view kind) (.view kind dict)

def unionOf (left right : Value) : Action Value := do
  let w ← get
  match w.entries? left, w.entries? right with
  | some entries, some _ =>
    let result ← createDict entries
    updateDict result right
    pure result
  | _, _ => pure .notImplemented

def callDictMethod (dict : Value) (name : String) (args : List Value) : Action Value := do
  let (id, entries) ← requireEntries dict
  match name, args with
  | "__init__", [] => return .null
  | "__init__", [source] | "update", [source] => do updateDict dict source; return .null
  | "update", [] => return .null
  | "get", [key] => return (← lookup? entries key).getD .null
  | "get", [key, default] => return (← lookup? entries key).getD default
  | "setdefault", key :: rest =>
    if 1 < rest.length then throw .wrongType
    match ← lookup? entries key with
    | some value => pure value
    | none =>
      let value := rest.headD .null
      putKey dict key value
      pure value
  | "pop", key :: rest =>
    if 1 < rest.length then throw .wrongType
    let found ← if entries.isEmpty then pure none else takeKey? dict key
    match found, rest with
    | some value, _ => pure value
    | none, [default] => pure default
    | none, _ => throw .noKey
  | "popitem", [] => match entries.getLast? with
    | some e => do
      setBody id (.dict entries.dropLast)
      createTuple [e.key, e.value]
    | none => throw .noKey
  | "keys", [] => createView .keys id
  | "values", [] => createView .values id
  | "items", [] => createView .items id
  | "clear", [] => do setBody id (.dict []); return .null
  | "copy", [] => createDict entries
  | "__reversed__", [] => createIterator .keysBackwards (entries.map (·.key)).reverse
  | "__or__", [other] => unionOf dict other
  | "__ror__", [other] => unionOf other dict
  | "__ior__", [other] => do updateDict dict other; pure dict
  | "__sizeof__", [] => return .small 64
  | _, _ => throw .wrongType

def dictFromKeys (make : Action Value) (args : List Value) : Action Value := do
  let (keys, value) ← match args with
    | [keys] => pure (keys, Value.null)
    | [keys, value] => pure (keys, value)
    | _ => throw .wrongType
  let dict ← make
  forElements keys fun key => setItem dict key value
  pure dict

def callViewMethod (kind : ViewKind) (dict : ObjectId) (name : String) (args : List Value)
    : Action Value := do
  let entries := ((← get).entries? (.object dict)).getD []
  match name, args with
  | "__reversed__", [] => do
    createIterator .keysBackwards (← entries.reverse.mapM kind.element)
  | "isdisjoint", [other] => do
    let items ← entries.mapM kind.element
    let common ← (← elements other).filterM fun item => standsIn item items
    return .bool common.isEmpty
  | _, _ => throw .wrongType

def callIteratorMethod (id : ObjectId) (rest : List Value) (name : String) (args : List Value)
    : Action Value := do
  match name, args, rest with
  | "__next__", [], item :: rest => do
    setBody id (.iterator rest)
    pure item
  | "__next__", [], [] => throw .exhausted
  | "__length_hint__", [], _ => createInt rest.length
  | _, _, _ => throw .wrongType

end Fxml.Live
