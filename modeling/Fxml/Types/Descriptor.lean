import Fxml.Table
import Fxml.Text.Blank

/-! The language of type names: primitive names, `list[T]`, `dict[K, V]` and dotted names. -/

namespace Fxml.TypeName

def primitives : List String := ["str", "int", "float", "bool", "object"]

def isPrimitive (name : String) : Bool := primitives.contains name

def alias? : String → Option String
  | "String" => some "str"
  | "Integer" | "Long" | "Short" | "Byte" => some "int"
  | "Double" | "Float" => some "float"
  | "Boolean" => some "bool"
  | "Object" => some "object"
  | _ => none

def primitiveBases : String → List String
  | "object" => []
  | "bool" => ["int", "object"]
  | _ => ["object"]

/-- Cuts a text at a separator outside of brackets. `depth` counts the brackets that are open, and
`part` is the piece under way, reversed. -/
def splitOutside (sep : Char) (depth : Int) (part : List Char) : List Char → List (List Char)
  | [] => [part.reverse]
  | c :: rest =>
    if c = '[' then splitOutside sep (depth + 1) (c :: part) rest
    else if c = ']' then splitOutside sep (depth - 1) (c :: part) rest
    else if c = sep && depth == 0 then part.reverse :: splitOutside sep depth [] rest
    else splitOutside sep depth (c :: part) rest

/-- The parts of a text between separators outside of brackets, without blanks at their ends. -/
def splitTopLevel (text : String) (sep : Char) : List String :=
  (splitOutside sep 0 [] text.toList).map fun part => Text.strip (String.ofList part)

/-- What stands between a head such as `list[` and a closing bracket at the end. -/
def inside? (head : String) (name : String) : Option String :=
  if head.toList.isPrefixOf name.toList then
    let rest := name.toList.drop head.length
    if rest.getLast? = some ']' then some (String.ofList rest.dropLast) else none
  else none

def listItem? (name : String) : Option String := inside? "list[" name

def mapTypes? (name : String) : Option (String × String) :=
  match (inside? "dict[" name).map (splitTopLevel · ',') with
  | some [key, value] => some (key, value)
  | _ => none

/-- The type of what a list of this type may hold; anything if the type does not say. -/
def itemOrObject (type : String) : String :=
  match listItem? type with
  | none | some "" => "object"
  | some item => item

def listOf (item : String) : String := "list[" ++ item ++ "]"

def mapOf (key value : String) : String := "dict[" ++ key ++ ", " ++ value ++ "]"

theorem listItem?_length {name item : String} (h : listItem? name = some item)
    : item.length < name.length := by
  unfold listItem? inside? at h
  split at h
  · dsimp only at h
    split at h
    · cases h
      have hd := @List.length_dropLast Char (name.toList.drop "list[".length)
      have hl : "list[".length = 5 := by decide
      simp only [String.length_ofList, List.length_drop, hl] at *
      rename_i hp hg
      have : 0 < (name.toList.drop 5).length := by
        cases hc : name.toList.drop 5 with
        | nil => simp [hc] at hg
        | cons _ _ => simp
      simp only [List.length_drop, String.length_toList] at *
      omega
    · cases h
  · cases h

end Fxml.TypeName

/-! What is known about a type. -/

namespace Fxml

structure Param where
  name : String
  type : String := "object"
  hasDefault : Bool := false
deriving DecidableEq

structure Constructor where
  params : List Param := []
deriving DecidableEq

namespace Constructor

def required (c : Constructor) : List Param := c.params.filter (!·.hasDefault)

def param? (c : Constructor) (name : String) : Option Param := c.params.find? (·.name == name)

end Constructor

inductive PropertyKind where
  | value | list | map
  /-- A kind that has no meaning here. -/
  | other (name : String)
deriving DecidableEq

namespace PropertyKind

def name : PropertyKind → String
  | value => "value"
  | list => "list"
  | map => "map"
  | other name => name

def ofName : String → PropertyKind
  | "value" => value
  | "list" => list
  | "map" => map
  | name => other name

end PropertyKind

/-- A property: its declared type, whether it can be set, and how it holds its value. -/
structure PropertyInfo where
  name : String
  type : String := "object"
  settable : Bool := true
  observable : Bool := false
  kind : PropertyKind := .value
deriving DecidableEq

structure Signature where
  params : List Param := []
  varargs : Bool := false
deriving DecidableEq

def Signature.accepts (s : Signature) (count : Nat) : Bool :=
  (s.params.filter (!·.hasDefault)).length ≤ count && (s.varargs || count ≤ s.params.length)

structure TypeDescriptor where
  name : String
  module : String
  bases : List String := []
  constructors : List Constructor := []
  properties : Table PropertyInfo := []
  defaultProperty : Option String := none
  events : Table String := []
  /-- Properties that this type attaches to other objects, and their types. -/
  staticProperties : Table String := []
  constants : Table String := []
  factories : Table String := []
  members : List String := []
  valueOf : Bool := false
  builder : Option String := none
  copyable : Bool := true
  /-- How a type that is itself a collection holds its items. -/
  collection : Option PropertyKind := none
  itemType : String := "object"
  methods : Table (List Signature) := []

namespace TypeDescriptor

/-- The module of a dotted name is what stands before its last dot. -/
def moduleOf (name : String) : String :=
  match (name.toList.splitOn '.').reverse with
  | _ :: before :: rest => String.ofList (['.'].intercalate (before :: rest).reverse)
  | _ => "builtins"

def blank (name : String) : TypeDescriptor := { name, module := moduleOf name }

def noArgument? (d : TypeDescriptor) : Option Constructor :=
  d.constructors.find? (·.required.isEmpty)

def singleArgument (d : TypeDescriptor) : List Constructor :=
  d.constructors.filter fun c =>
    c.required.length == 1 || (c.required.isEmpty && !c.params.isEmpty)

def isEnum (d : TypeDescriptor) : Bool := !d.members.isEmpty

def primitive (name : String) : TypeDescriptor :=
  let plain : TypeDescriptor :=
    { blank name with bases := TypeName.primitiveBases name, constructors := [⟨[]⟩] }
  if name = "object" then plain
  else { plain with constructors := [⟨[]⟩, ⟨[⟨"value", name, false⟩]⟩], valueOf := true }

end TypeDescriptor

end Fxml
