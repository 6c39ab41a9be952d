import Fxml.Types.Descriptor

/-! Python classes as the type source sees them: modules, the classes they define, and what the
class bodies declare. -/

namespace Fxml

inductive TypeHint where
  | missing
  | text (s : String)
  | type (name : String)
  | list (item : TypeHint)
  | dict (key value : TypeHint)
  | union (members : List TypeHint)
  | classVar (inner : TypeHint)
  | any
deriving BEq, Inhabited

inductive ParamKind where
  | positional | varargs | keywordOnly | keywordArgs
deriving DecidableEq

structure FunctionParam where
  name : String
  hint : TypeHint := .missing
  hasDefault : Bool := false
  kind : ParamKind := .positional

inductive ClassMember where
  /-- An observable property: the type of its default if that is not null, its declared type, and
  whether it is read only. -/
  | observable (default : Option String) (type : TypeHint) (readOnly : Bool)
  | observableList (item : TypeHint)
  | event (type : TypeHint)
  | property (returns : TypeHint) (getter setter : Bool)
  | staticMethod (params : List FunctionParam) (returns : TypeHint)
  | classMethod (params : List FunctionParam) (returns : TypeHint)
  | method (params : List FunctionParam)
  | constant (type : String)
  | callable

def ClassMember.isConstant : ClassMember → Bool
  | .constant _ => true
  | _ => false

/-- A class body. The late members are set once the class and the classes nested in it exist. -/
inductive ClassModel where
  | mk (name : String) (bases : List String) (hints : Table TypeHint)
      (members late : Table ClassMember) (init : Option (List FunctionParam))
      (defaultProperty : Option (Option String)) (builder : Option String)
      (copyable : Option Bool) (itemType : Option TypeHint) (nested : List ClassModel)
deriving Inhabited

/-- A module: its classes, the classes it knows under further names, and the names of its values
that are no classes. -/
structure ModuleModel where
  name : String
  aliases : Table String := []
  values : List String := []
  classes : List ClassModel := []

/-- A class with its place: the module, the path inside it and the qualified names of its bases. -/
structure ClassInfo where
  module : String
  path : String
  bases : List String
  hints : Table TypeHint
  members : Table ClassMember
  /-- The names of the attributes of the body itself that are plain values. -/
  constants : List String
  init : Option (List FunctionParam)
  defaultProperty : Option (Option String)
  builder : Option String
  copyable : Option Bool
  itemType : Option TypeHint
  nested : List String

def ClassInfo.qualifiedName (c : ClassInfo) : String := c.module ++ "." ++ c.path

namespace ClassModel

def name : ClassModel → String
  | mk name .. => name

/-- The classes of the language itself that a model may name, with their ancestors. -/
def builtinAncestors : Table (List String) :=
  [("object", []), ("str", ["object"]), ("int", ["object"]), ("float", ["object"]),
   ("bool", ["int", "object"]), ("bytes", ["object"]), ("list", ["object"]),
   ("dict", ["object"]), ("Exception", ["BaseException", "object"]),
   ("enum.Enum", ["object"]), ("typing.Any", ["object"]), ("NoneType", ["object"])]

/-- The qualified name of a base: a class of the same module unless it has a dot or belongs to the
language.
-/
def baseName (module base : String) : String :=
  if base.toList.contains '.' || builtinAncestors.contains base then base
  else module ++ "." ++ base

mutual

def flatten (module outer : String) : ClassModel → List ClassInfo
  | mk name bases hints members late init defaultProperty builder copyable itemType nested =>
    let path := outer ++ name
    let constants := (members.filter fun (_, m) => m.isConstant).map Prod.fst
    { module, path, bases := bases.map (baseName module), hints
      members := members.update late, constants, init, defaultProperty
      builder, copyable, itemType, nested := nested.map ClassModel.name }
      :: flattenAll module (path ++ ".") nested

def flattenAll (module outer : String) : List ClassModel → List ClassInfo
  | [] => []
  | c :: rest => flatten module outer c ++ flattenAll module outer rest

end

end ClassModel

/-- The modules that can be imported, and their classes by qualified name. -/
structure ClassWorld where
  modules : Table ModuleModel
  classes : Table ClassInfo

namespace ClassWorld

def ofModules (modules : List ModuleModel) : ClassWorld where
  modules := Table.ofList (modules.map fun m => (m.name, m))
  classes := Table.ofList
    ((modules.flatMap fun m => ClassModel.flattenAll m.name "" m.classes).map fun c =>
      (c.qualifiedName, c))

/-- Takes the first head of a sequence that stands in no tail, over and over. -/
def mergeOrders : Nat → List (List String) → List String
  | 0, _ => []
  | fuel + 1, sequences =>
    let sequences := sequences.filter (!·.isEmpty)
    let heads := sequences.filterMap List.head?
    match heads.find? fun h => sequences.all fun s => !(s.drop 1).contains h with
    | some h =>
      h :: mergeOrders fuel (sequences.map fun s => if s.head? = some h then s.drop 1 else s)
    | none => []

/-- The order in which the attributes of a class are looked up: the class itself, then its
ancestors, where every class stands before its bases and bases keep their order.
-/
def resolutionOrder (w : ClassWorld) : Nat → String → List String
  | 0, name => [name]
  | fuel + 1, name =>
    match w.classes.get? name with
    | none => name :: (ClassModel.builtinAncestors.get? name).getD ["object"]
    | some c =>
      let bases := if c.bases.isEmpty then ["object"] else c.bases
      let orders := bases.map (resolutionOrder w fuel)
      let sequences := orders ++ [bases]
      name :: mergeOrders ((sequences.map List.length).foldl (· + ·) 1) sequences

def orderOf (w : ClassWorld) (name : String) : List String :=
  w.resolutionOrder (w.classes.length + 1) name

/-- The class that an attribute of a class denotes: the first class in the resolution order that
declares the name must declare it as a nested class.
-/
def nestedClass? (w : ClassWorld) (name attr : String) : Option String :=
  let declares (c : ClassInfo) : Bool := c.members.contains attr || c.nested.contains attr
  match ((w.orderOf name).filterMap w.classes.get?).find? declares with
  | some c =>
    if c.members.contains attr then none else some (c.qualifiedName ++ "." ++ attr)
  | none => none

def moduleClass? (w : ClassWorld) (m : ModuleModel) (name : String) : Option String :=
  match m.aliases.get? name with
  | some target => some (ClassModel.baseName m.name target)
  | none =>
    let qualified := m.name ++ "." ++ name
    if w.classes.contains qualified then some qualified else none

def attributePath? (w : ClassWorld) (start : Option String) (attrs : List String) : Option String :=
  attrs.foldl (fun found attr => found.bind (w.nestedClass? · attr)) start

/-- The class that a dotted name denotes: the longest module name in front of it that can be
imported decides.
-/
def lookup? (w : ClassWorld) (name : String) : Option String :=
  if TypeName.isPrimitive name then some name
  else
    let parts := (name.toList.splitOn '.').map String.ofList
    let cuts := (List.range parts.length).reverse.filter (0 < ·)
    let moduleAt (i : Nat) : Option ModuleModel :=
      w.modules.get? (".".intercalate (parts.take i))
    match cuts.find? fun i => (moduleAt i).isSome with
    | none => none
    | some i =>
      match moduleAt i, parts.drop i with
      | some m, first :: attrs => w.attributePath? (w.moduleClass? m first) attrs
      | _, _ => none

end ClassWorld

end Fxml
