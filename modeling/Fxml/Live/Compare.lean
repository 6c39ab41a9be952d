import Fxml.Live.Code

/-! Comparison of values. Numbers compare by what they denote, texts by their characters, lists,
tuples and dictionaries by what they hold, and everything else equals only itself, unless its class
says otherwise.
-/

namespace Fxml.Live

inductive Relation where
  | equal
  | notEqual
  | less
  | lessEqual
  | greater
  | greaterEqual
deriving DecidableEq

namespace Relation

def name : Relation → String
  | equal => "__eq__"
  | notEqual => "__ne__"
  | less => "__lt__"
  | lessEqual => "__le__"
  | greater => "__gt__"
  | greaterEqual => "__ge__"

def all : List Relation := [equal, notEqual, less, lessEqual, greater, greaterEqual]

def ofName? (name : String) : Option Relation := all.find? (·.name == name)

def reflected : Relation → Relation
  | equal => equal
  | notEqual => notEqual
  | less => greater
  | lessEqual => greaterEqual
  | greater => less
  | greaterEqual => lessEqual

def holds : Relation → Ordering → Bool
  | equal, o => o.isEq
  | notEqual, o => o.isNe
  | less, o => o.isLT
  | lessEqual, o => o.isLE
  | greater, o => o.isGT
  | greaterEqual, o => o.isGE

/-- Whether the relation holds of values that cannot be ordered; none but inequality does. -/
def holdsApart (r : Relation) : Bool := r == notEqual

end Relation

/-- Whether scalars stand in a relation; `none` when the relation is not theirs. -/
def scalarRelation? (r : Relation) (s t : Scalar) : Option Bool :=
  match amountOf? s, amountOf? t with
  | some x, some y => some (((x.compare? y).map r.holds).getD r.holdsApart)
  | _, _ => match s, t with
    | .text a, .text b => some (r.holds (compare a b))
    | _, _ => none

def identityRelation (r : Relation) (a b : Value) : Value :=
  match r with
  | .equal => if a.identical b then .bool true else .notImplemented
  | .notEqual => if a.identical b then .bool false else .notImplemented
  | _ => .notImplemented

def firstDifference (same : Value → Value → Action Bool)
    : List Value → List Value → Action (Option (Value × Value))
  | x :: xs, y :: ys => do
    if ← same x y then firstDifference same xs ys else return some (x, y)
  | _, _ => return none

/-- Whether sequences stand in a relation: the first difference decides, then the length. -/
def sequenceRelation (same : Value → Value → Action Bool)
    (ordered : Value → Value → Action Value) (r : Relation) (xs ys : List Value)
    : Action Value := do
  let isEquality := r == .equal || r == .notEqual
  if isEquality && xs.length != ys.length then return .bool (r == .notEqual)
  match ← firstDifference same xs ys with
  | none => return .bool (r.holds (compare xs.length ys.length))
  | some (x, y) => if isEquality then return .bool (r == .notEqual) else ordered x y

/-- The entry of a key. Only keys of the same code are compared. -/
def findEntry (same : Value → Value → Action Bool) (code : Code) (key : Value)
    : List Entry → Action (Option Entry)
  | [] => return none
  | e :: rest => do
    if e.code == code then
      if ← same e.key key then return some e
      else findEntry same code key rest
    else findEntry same code key rest

def entriesWithin (same : Value → Value → Action Bool) (others : List Entry)
    : List Entry → Action Bool
  | [] => return true
  | e :: rest => do
    match ← findEntry same e.code e.key others with
    | none => return false
    | some other =>
      if ← same other.value e.value then entriesWithin same others rest else return false

def keysWithin (same : Value → Value → Action Bool) (others : List Entry) : List Entry → Action Bool
  | [] => return true
  | e :: rest => do
    match ← findEntry same e.code e.key others with
    | none => return false
    | some _ => keysWithin same others rest

def askIf (condition : Bool) (question : Action Bool) : Action Bool :=
  if condition then question else pure false

def viewRelation (within : List Entry → List Entry → Action Bool) (r : Relation)
    (xs ys : List Entry)
    : Action Value := do
  match r with
  | .equal => return .bool (← askIf (xs.length == ys.length) (within ys xs))
  | .notEqual => return .bool !(← askIf (xs.length == ys.length) (within ys xs))
  | .less => return .bool (← askIf (xs.length < ys.length) (within ys xs))
  | .lessEqual => return .bool (← askIf (xs.length ≤ ys.length) (within ys xs))
  | .greater => return .bool (← askIf (ys.length < xs.length) (within xs ys))
  | .greaterEqual => return .bool (← askIf (ys.length ≤ xs.length) (within xs ys))

def sameEntries (same : Value → Value → Action Bool) (xs ys : List Entry) : Action Bool :=
  askIf (xs.length == ys.length) (entriesWithin same ys xs)

/-- What two values of basic kinds answer about a relation, given how their elements compare. -/
def basicRelation (same : Value → Value → Action Bool) (ordered : Value → Value → Action Value)
    (r : Relation) (a b : Value)
    : Action Value := do
  let w ← get
  match w.scalar? a, w.scalar? b with
  | some s, some t => match s, t, b with
    | .int _, .float _, .object _ | .bool _, .float _, .object _ => return .notImplemented
    | _, _, _ => return match scalarRelation? r s t with
      | some holds => .bool holds
      | none => identityRelation r a b
  | _, _ => match w.body? a, w.body? b with
    | some (.list xs), some (.list ys) => sequenceRelation same ordered r xs ys
    | some (.tuple xs), some (.tuple ys) => sequenceRelation same ordered r xs ys
    | some (.bytes xs), some (.bytes ys) => return .bool (r.holds (compare xs ys))
    | some (.dict xs), some (.dict ys) => match r with
      | .equal => return .bool (← sameEntries same xs ys)
      | .notEqual => return .bool !(← sameEntries same xs ys)
      | _ => return .notImplemented
    | some (.view .keys x), some (.view .keys y) =>
      viewRelation (keysWithin same) r ((w.entries? (.object x)).getD [])
        ((w.entries? (.object y)).getD [])
    | some (.view .items x), some (.view .items y) =>
      viewRelation (entriesWithin same) r ((w.entries? (.object x)).getD [])
        ((w.entries? (.object y)).getD [])
    | some (.parameterized t xs), some (.parameterized u ys) => match r with
      | .equal | .notEqual =>
        if t == u then sequenceRelation same ordered r xs ys else return .bool (r == .notEqual)
      | _ => return .notImplemented
    | _, _ => match a, b with
      | .method s f _, .method t g _ =>
        match r with
        | .equal => return .bool (s.identical t && f.identical g)
        | .notEqual => return .bool !(s.identical t && f.identical g)
        | _ => return .notImplemented
      | _, _ => return identityRelation r a b

/-- Whether a class declares equality of its own and leaves inequality to be its opposite. -/
def World.invertsEquality (w : World) (v : Value) : Bool :=
  (w.override? v "__eq__").isSome && match w.declaration? (w.typeOf v) "__ne__" with
    | some (.basic .object, _) => true
    | _ => false

def answerRelation (same : Value → Value → Action Bool) (ordered : Value → Value → Action Value)
    (r : Relation) (a b : Value)
    : Action Value := do
  match ← callOverride? a r.name [b] with
  | some result => pure result
  | none =>
    if r == .notEqual && (← get).invertsEquality a then
      match ← callOverride? a "__eq__" [b] with
      | some .notImplemented | none => pure .notImplemented
      | some result => return .bool !(← truth result)
    else basicRelation same ordered r a b

def unansweredRelation (r : Relation) (a b : Value) : Action Value :=
  match r with
  | .equal => pure (.bool (a.identical b))
  | .notEqual => pure (.bool !a.identical b)
  | _ => throw .wrongType

/-- Asks the first value about a relation, then the second; a value of a type that refines the other's
is asked first.
-/
def askRelation (answer : Relation → Value → Value → Action Value) (r : Relation) (a b : Value)
    : Action Value := do
  let w ← get
  let t := w.typeOf a
  let u := w.typeOf b
  let secondFirst := t != u && w.refines u t
  let early ← if secondFirst then answer r.reflected b a else pure .notImplemented
  if !early.isNotImplemented then pure early
  else
    let first ← answer r a b
    if !first.isNotImplemented then pure first
    else
      let second ← if secondFirst then pure .notImplemented else answer r.reflected b a
      if !second.isNotImplemented then pure second else unansweredRelation r a b

/-- The result of a relation, with a bound on how deeply values are nested. Elements that are one and
the same count as equal.
-/
def relateWithin : Nat → Relation → Value → Value → Action Value
  | 0, _, _, _ => throw .tooDeep
  | depth + 1, r, a, b => do
    let same (x y : Value) : Action Bool := do
      if x.identical y then return true else truth (← relateWithin depth .equal x y)
    match a, b with
    | .scalar s _, .scalar t _ => match scalarRelation? r s t with
      | some holds => return .bool holds
      | none => unansweredRelation r a b
    | _, _ => askRelation (fun r => answerRelation same (relateWithin depth r) r) r a b

def relate (r : Relation) (a b : Value) : Action Value := relateWithin nestingLimit r a b

def matching (a b : Value) : Action Bool := do
  if a.identical b then return true else truth (← relate .equal a b)

/-- Whether setting one value for another changes nothing: they are the same, or equal and of one
type.
-/
def unchanged (old new : Value) : Action Bool := do
  if old.identical new then return true
  else if (← get).typeOf old != (← get).typeOf new then return false
  else truth (← relate .equal old new)

def positionOf? (value : Value) (items : List Value) (start : Nat := 0) : Action (Option Nat) :=
  match items with
  | [] => return none
  | item :: rest => do
    if ← matching item value then return some start else positionOf? value rest (start + 1)

def standsIn (value : Value) (items : List Value) : Action Bool := do
  return (← positionOf? value items).isSome

end Fxml.Live
