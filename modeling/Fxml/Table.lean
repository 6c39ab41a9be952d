/-! Tables from names to values that keep the order in which names were first put. -/

namespace Fxml

/-- A table in insertion order. -/
abbrev Table (α : Type) : Type := List (String × α)

namespace Table

variable {α β : Type}

def get? (t : Table α) (name : String) : Option α := t.lookup name

def contains (t : Table α) (name : String) : Bool := (t.get? name).isSome

/-- Gives a name a value; a name that is there keeps its place. -/
def put (t : Table α) (name : String) (value : α) : Table α :=
  if t.contains name then t.map fun (k, v) => if k == name then (k, value) else (k, v)
  else t ++ [(name, value)]

def erase (t : Table α) (name : String) : Table α := t.filter fun (k, _) => k != name

def keys (t : Table α) : List String := t.map (·.1)

def values (t : Table α) : List α := t.map (·.2)

def ofList (entries : List (String × α)) : Table α :=
  entries.foldl (fun t (k, v) => t.put k v) []

/-- Puts the entries of the second table into the first. -/
def update (t other : Table α) : Table α := other.foldl (fun t (k, v) => t.put k v) t

end Table

end Fxml
