import Fxml.Live.Iteration
import Fxml.Live.Property

/-! Positions in lists: an index may count from the end, and a slice names every so-many-th element
of a stretch.
-/

namespace Fxml.Live

def position? (size : Nat) (index : Int) : Option Nat :=
  let i := if index < 0 then index + size else index
  if 0 ≤ i ∧ i < size then some i.toNat else none

/-- The position before which an index inserts; one that is out of range is moved to the nearer
end.
-/
def insertPosition (size : Nat) (index : Int) : Nat :=
  let i := if index < 0 then index + size else index
  min i.toNat size

structure Slice where
  start : Option Int
  stop : Option Int
  step : Option Int
deriving DecidableEq

/-- A slice of a list of a known size: the bounds count from the front, and the step is not zero. -/
structure Stretch where
  start : Int
  stop : Int
  step : Int
deriving DecidableEq

namespace Slice

/-- A bound of a slice moved into the range from `lower` to `upper`. -/
def bound (size : Nat) (lower upper : Int) (i : Int) : Int :=
  if i < 0 then max (i + size) lower else min i upper

/-- The stretch that a slice names in a list, unless its step is zero. -/
def stretch? (s : Slice) (size : Nat) : Option Stretch :=
  let step := s.step.getD 1
  if step = 0 then none
  else if step < 0 then
    some ⟨(s.start.map (bound size (-1) (size - 1))).getD (size - 1),
      (s.stop.map (bound size (-1) (size - 1))).getD (-1), step⟩
  else
    some ⟨(s.start.map (bound size 0 size)).getD 0, (s.stop.map (bound size 0 size)).getD size, step⟩

end Slice

namespace Stretch

def count (r : Stretch) : Nat :=
  if 0 < r.step then ((r.stop - r.start + r.step - 1) / r.step).toNat
  else ((r.start - r.stop - r.step - 1) / -r.step).toNat

def positions (r : Stretch) : List Nat :=
  (List.range r.count).map fun (k : Nat) => (r.start + k * r.step).toNat

variable {α : Type}

def pick (r : Stretch) (items : List α) : List α := r.positions.filterMap (items[·]?)

def delete (r : Stretch) (items : List α) : List α :=
  (items.zipIdx.filter fun (_, i) => !r.positions.contains i).map (·.1)

/-- The list with other elements for a stretch. Only a stretch of neighbours can grow or shrink. -/
def replace? (r : Stretch) (items new : List α) : Option (List α) :=
  if r.step = 1 then
    some (items.take r.start.toNat ++ new ++ items.drop (max r.start r.stop).toNat)
  else if new.length = r.count then
    some ((r.positions.zip new).foldl (fun items (i, x) => items.set i x) items)
  else none

end Stretch

end Fxml.Live

/-! Changes of lists, as functions of what a list holds. -/

namespace Fxml.Live

/-- A change of a list: what the list holds afterwards, what came and what went. -/
structure Edit where
  items : List Value
  added : List Value
  removed : List Value

namespace Edit

def append (items : List Value) (item : Value) : Edit := ⟨items ++ [item], [item], []⟩

def extend (items new : List Value) : Edit := ⟨items ++ new, new, []⟩

/-- Puts an element before a position, which is moved to the nearer end when it is out of range. -/
def insert (items : List Value) (index : Int) (item : Value) : Edit :=
  let i := insertPosition items.length index
  ⟨items.take i ++ item :: items.drop i, [item], []⟩

def remove (items : List Value) (i : Nat) (item : Value) : Edit := ⟨items.eraseIdx i, [], [item]⟩

def delete? (items : List Value) (index : Int) : Option Edit :=
  (position? items.length index).map fun i => ⟨items.eraseIdx i, [], items[i]?.toList⟩

def replace? (items : List Value) (index : Int) (item : Value) : Option Edit :=
  (position? items.length index).map fun i => ⟨items.set i item, [item], items[i]?.toList⟩

def clear (items : List Value) : Edit := ⟨[], [], items⟩

def replaceStretch? (items : List Value) (r : Stretch) (new : List Value) : Option Edit :=
  (r.replace? items new).map fun after => ⟨after, new, r.pick items⟩

def deleteStretch (items : List Value) (r : Stretch) : Edit := ⟨r.delete items, [], r.pick items⟩

end Edit

end Fxml.Live

/-! Changes of lists. Observable lists tell their listeners what came and what went. -/

namespace Fxml.Live

def requireItems (v : Value) : Action (ObjectId × List Value) := do
  match v, (← get).items? v with
  | .object id, some items => pure (id, items)
  | _, _ => throw .wrongType

/-- Tells the listeners of a list about a change, unless nothing came and nothing went. -/
def announceEdit (list : Value) (added removed : List Value) : Action Unit := do
  if added.isEmpty && removed.isEmpty then pure ()
  else
    let addedList ← createList added
    let removedList ← createList removed
    let change ← createRecord .listChange
      [("source", list), ("added", addedList), ("removed", removedList)]
    notify list [change]

/-- Carries a change of a list out, and tells its listeners if it is to. -/
def applyEdit (tells : Bool) (list : Value) (edit : Edit) : Action Unit := do
  let (id, _) ← requireItems list
  setBody id (.list edit.items)
  if tells then announceEdit list edit.added edit.removed

def requireEdit (edit : Option Edit) (e : Error) : Action Edit :=
  match edit with
  | some edit => pure edit
  | none => throw e

def appendItem (tells : Bool) (list item : Value) : Action Unit := do
  let (_, items) ← requireItems list
  applyEdit tells list (.append items item)

def extendList (tells : Bool) (list more : Value) : Action Unit := do
  let new ← if more.identical list then wholeElements more else listElements more
  let (_, items) ← requireItems list
  applyEdit tells list (.extend items new)

def insertItem (tells : Bool) (list index item : Value) : Action Unit := do
  let i ← wordIndexOf index
  let (_, items) ← requireItems list
  applyEdit tells list (.insert items i item)

def removeItem (tells : Bool) (list item : Value) : Action Unit := do
  let (_, items) ← requireItems list
  match ← positionOf? item items with
  | some i => applyEdit tells list (.remove items i item)
  | none => throw .wrongValue

def popItem (tells : Bool) (list : Value) (index : Int) : Action Value := do
  let (_, items) ← requireItems list
  let edit ← requireEdit (Edit.delete? items index) .noIndex
  applyEdit tells list edit
  return edit.removed.headD .null

def clearList (tells : Bool) (list : Value) : Action Unit := do
  let (_, items) ← requireItems list
  applyEdit tells list (.clear items)

def sliceBoundOf (v : Value) : Action (Option Int) := do
  if v.isNull then return none else return some (← indexOf v)

def stretchOf (size : Nat) (start stop step : Value) : Action Stretch := do
  let step ← sliceBoundOf step
  if step == some 0 then throw .wrongValue
  let start ← sliceBoundOf start
  let stop ← sliceBoundOf stop
  match (Slice.mk start stop step).stretch? size with
  | some r => pure r
  | none => throw .wrongValue

/-- Puts something else at a place of a list: an element at an index, or elements at a slice. A list
that is put into a slice of itself is read again for its listeners.
-/
def setListItem (tells : Bool) (list key value : Value) : Action Unit := do
  match (← get).body? key with
  | some (.slice start stop step) =>
    let r ← stretchOf (← requireItems list).2.length start stop step
    let new ← if value.identical list then pure (← requireItems list).2 else wholeElements value
    let (_, items) ← requireItems list
    let edit ← requireEdit (Edit.replaceStretch? items r new) .wrongValue
    let (id, _) ← requireItems list
    setBody id (.list edit.items)
    if tells then announceEdit list (← listElements value) edit.removed
  | _ =>
    let i ← indexOf key
    let (_, items) ← requireItems list
    applyEdit tells list (← requireEdit (Edit.replace? items i value) .noIndex)

def deleteListItem (tells : Bool) (list key : Value) : Action Unit := do
  match (← get).body? key with
  | some (.slice start stop step) =>
    let (_, items) ← requireItems list
    let r ← stretchOf items.length start stop step
    applyEdit tells list (.deleteStretch items r)
  | _ =>
    let i ← indexOf key
    let (_, items) ← requireItems list
    applyEdit tells list (← requireEdit (Edit.delete? items i) .noIndex)

end Fxml.Live
