import Fxml.Json
import Fxml.Types.Source

/-! Catalogs: tables of type descriptors, usually kept as structured data. A descriptor of a catalog
inherits the members of its bases. -/

open List Fxml.TypeName

namespace Fxml.Catalog

inductive Error where
  | cyclicBases (path : List String)
  | unnamedParam
  /-- A value of the named type stands where a table of names is expected. -/
  | notATable (type : String)
  | notAList (type : String)
  /-- A value of the named type stands where a parameter is expected. -/
  | notAParam (type : String)
  | notAPair (index length : Nat)
  | noParts (index : Nat)
deriving DecidableEq

def Error.message : Error → String
  | .cyclicBases path => "cyclic base types: " ++ " -> ".intercalate path
  | .unnamedParam => "'name'"
  | .notATable type => "'" ++ type ++ "' object has no attribute 'get'"
  | .notAList type => "'" ++ type ++ "' object is not iterable"
  | .notAParam "list" => "list indices must be integers or slices, not str"
  | .notAParam type => "'" ++ type ++ "' object is not subscriptable"
  | .notAPair index length =>
    "dictionary update sequence element #" ++ toString index ++ " has length " ++ toString length
      ++ "; 2 is required"
  | .noParts index =>
    "cannot convert dictionary update sequence element #" ++ toString index ++ " to a sequence"

abbrev Outcome (α : Type) : Type := Except Error α

def typeName : Json → String
  | .array _ => "list"
  | .object _ => "dict"
  | .scalar .null => "NoneType"
  | .scalar (.bool _) => "bool"
  | .scalar (.int _) => "int"
  | .scalar (.float _) => "float"
  | .scalar (.text _) => "str"

def fields : Json → Outcome (List (String × Json))
  | .object fields => .ok fields
  | j => .error (.notATable (typeName j))

/-- The items of a value that has some: a text is the list of its characters and an object the list
of its keys.
-/
def parts? : Json → Option (List Json)
  | .array items => some items
  | .object fields => some (fields.map fun (k, _) => .scalar (.text k))
  | .scalar (.text s) => some (s.toList.map fun c => .scalar (.text c.toString))
  | .scalar _ => none

def items (j : Json) : Outcome (List Json) :=
  match parts? j with
  | some items => .ok items
  | none => .error (.notAList (typeName j))

def textOf (j : Json) : String := j.text?.getD ""

def itemsField (entry : Json) (name : String) : Outcome (List Json) :=
  match entry.field? name with
  | some j => items j
  | none => .ok []

def pairs (index : Nat) : List Json → Outcome (List (String × Json))
  | [] => .ok []
  | j :: rest =>
    match parts? j with
    | some [key, value] => do return (textOf key, value) :: (← pairs (index + 1) rest)
    | some other => .error (.notAPair index other.length)
    | none => .error (.noParts index)

def table (j : Json) : Outcome (List (String × Json)) := do
  match j with
  | .object fields => return fields
  | j => return Table.ofList (← pairs 0 (← items j))

def fieldsField (entry : Json) (name : String) : Outcome (List (String × Json)) :=
  match entry.field? name with
  | some j => fields j
  | none => .ok []

def typeTable (entry : Json) (name : String) : Outcome (Table String) := do
  match entry.field? name with
  | some j => return (← table j).map fun (k, v) => (k, textOf v)
  | none => return []

def flag (entry : Json) (name : String) (default : Bool) : Bool :=
  ((entry.field? name).map Json.isTrue).getD default

def textField? (entry : Json) (name : String) : Option String :=
  (entry.field? name).bind Json.text?

/-- A parameter: its name alone, or an object that says more. -/
def param (j : Json) : Outcome Param :=
  match j with
  | .scalar (.text name) => .ok { name }
  | .object _ =>
    match j.field? "name" with
    | some name =>
      .ok ⟨textOf name, (textField? j "type").getD "object", flag j "default" false⟩
    | none => .error .unnamedParam
  | j => .error (.notAParam (typeName j))

def params (j : Json) : Outcome (List Param) := do (← items j).mapM param

/-- A property: its type alone, or an object that says more. A list property has a list type, and
only plain values can be set unless the entry says so.
-/
def property (name : String) (spec : Json) : Outcome PropertyInfo :=
  match spec with
  | .scalar (.text type) => .ok { name, type }
  | .object _ =>
    let kind := PropertyKind.ofName ((textField? spec "kind").getD "value")
    let type := (textField? spec "type").getD "object"
    let type :=
      if kind = .list && (listItem? type).isNone then listOf type else type
    .ok ⟨name, type, flag spec "settable" (kind == .value), flag spec "observable" false, kind⟩
  | j => .error (.notATable (typeName j))

/-- Event slots: a table to event types, or a list of names. -/
def events (entry : Json) : Outcome (Table String) :=
  match entry.field? "events" with
  | some (.array names) => .ok (Table.ofList (names.map fun n => (textOf n, "object")))
  | _ => typeTable entry "events"

def descriptor (name : String) (entry : Json) : Outcome TypeDescriptor := do
  let _ ← fields entry
  let bases ← itemsField entry "bases"
  let constructors ←
    match entry.field? "constructors" with
    | some j => (← items j).mapM fun ps => return Constructor.mk (← params ps)
    | none => pure [⟨[]⟩]
  let properties ← (← fieldsField entry "properties").mapM fun (k, spec) =>
    return (k, ← property k spec)
  let methods ← (← fieldsField entry "methods").mapM fun (k, signatures) => do
    return (k, ← (← items signatures).mapM fun ps => return Signature.mk (← params ps) false)
  return {
    name
    module := (textField? entry "module").getD (TypeDescriptor.moduleOf name)
    bases := bases.map textOf
    constructors
    properties
    defaultProperty := textField? entry "default_property"
    events := ← events entry
    staticProperties := ← typeTable entry "static_properties"
    constants := ← typeTable entry "constants"
    factories := ← typeTable entry "factories"
    members := (← itemsField entry "enum").map textOf
    valueOf := flag entry "value_of" false
    builder := textField? entry "builder"
    copyable := flag entry "copyable" true
    collection := (textField? entry "collection").map PropertyKind.ofName
    itemType := (textField? entry "item_type").getD "object"
    methods
  }

def addName (names : List String) (name : String) : List String :=
  if names.contains name then names else names ++ [name]

def overlay (below above : TypeDescriptor) : TypeDescriptor :=
  { below with
    properties := below.properties.update above.properties
    events := below.events.update above.events
    staticProperties := below.staticProperties.update above.staticProperties
    methods := below.methods.update above.methods
    defaultProperty := above.defaultProperty <|> below.defaultProperty
    collection := above.collection <|> below.collection
    itemType := if above.collection.isSome then above.itemType else below.itemType }

def unseen (types : Table TypeDescriptor) (seen : List String) : List String :=
  types.keys.filter fun k => !seen.contains k

theorem mem_keys_of_get? {types : Table TypeDescriptor} {name : String} {d : TypeDescriptor}
    (h : types.get? name = some d)
    : name ∈ types.keys := by
  obtain ⟨before, after, rfl, -⟩ := lookup_eq_some_iff.mp h
  simp [Table.keys]

theorem unseen_length {types : Table TypeDescriptor} {seen : List String} {name : String}
    (hn : name ∈ types.keys) (hs : ¬seen.contains name = true)
    : (unseen types (seen ++ [name])).length < (unseen types seen).length := by
  have he : unseen types (seen ++ [name]) = (unseen types seen).filter (· != name) := by
    simp only [unseen, filter_filter]
    congr 1
    funext k
    by_cases hk : k = name <;> simp [hk]
  rw [he, length_filter_lt_length_iff_exists]
  refine ⟨name, ?_, by simp⟩
  simp only [unseen, mem_filter]
  exact ⟨hn, by simpa using hs⟩

/-- The descriptor of a name of the table with what it inherits: the ancestors, and the members of
every base from the first to the last, each over the ones before, under its own. `seen` is the way
from the type that was asked for; a type on it again is its own ancestor.
-/
def inherit (types : Table TypeDescriptor) (seen : List String) (name : String)
    : Outcome (Option TypeDescriptor) :=
  match h : types.get? name with
  | none => .ok none
  | some own =>
    if hs : seen.contains name then .error (.cyclicBases (seen ++ [name]))
    else do
      have := unseen_length (mem_keys_of_get? h) hs
      let start : TypeDescriptor := { TypeDescriptor.blank name with module := own.module }
      let inherited ← own.bases.foldlM (fun below base => do
        match ← inherit types (seen ++ [name]) base with
        | none => return { below with bases := addName below.bases base }
        | some parent =>
          return { overlay below parent with
            bases := (base :: parent.bases).foldl addName below.bases }) start
      return some { overlay inherited own with
        bases := addName inherited.bases "object"
        constructors := own.constructors
        constants := own.constants
        factories := own.factories
        members := own.members
        valueOf := own.valueOf
        builder := own.builder
        copyable := own.copyable }
termination_by (unseen types seen).length

def inheritAll (types : Table TypeDescriptor) : Outcome (Table TypeDescriptor) := do
  let all ← types.keys.mapM fun name => return (name, ← inherit types [] name)
  return all.filterMap fun (name, d) => d.map fun d => (name, d)

def source (types : Table TypeDescriptor) : TypeSource where
  hasType name := types.contains name || isPrimitive name
  describe name :=
    if isPrimitive name then some (TypeDescriptor.primitive name) else types.get? name

/-- The source of types in structured data: a table of entries, or an object that holds one under
`types`.
-/
def ofJson (data : Json) : Outcome TypeSource := do
  let table ← fields data
  let table ← match data.field? "types" with
    | some inner => fields inner
    | none => pure table
  let types ← table.mapM fun (name, entry) => return (name, ← descriptor name entry)
  return source (← inheritAll types)

def empty : TypeSource := source []

end Fxml.Catalog
