import Fxml.Document.Basic
import Fxml.Types.Descriptor

/-! Sources of types: what the compiler may ask about a type. -/

open Fxml.TypeName

namespace Fxml

structure TypeSource where
  hasType : String → Bool
  describe : String → Option TypeDescriptor

structure AmbiguousType where
  name : String
  candidates : List String
deriving DecidableEq

def AmbiguousType.message (a : AmbiguousType) : String :=
  a.name ++ " is ambiguous: " ++ ", ".intercalate a.candidates

namespace TypeSource

def addCandidate (source : TypeSource) (found : List String) (candidate : String) : List String :=
  if !found.contains candidate && source.hasType candidate then found ++ [candidate] else found

def lastPart (name : String) : String :=
  String.ofList ((name.toList.splitOn '.').getLastD [])

/-- The name that a single import gives to a tag: the import's last part must be the first part of
the tag, and what follows it in the tag follows the import.
-/
def importedName? (imported tag : String) : Option String :=
  let head := tag.toList.takeWhile (· != '.')
  if String.ofList head == lastPart imported then
    some (imported ++ String.ofList (tag.toList.drop head.length))
  else none

def explicitCandidates (source : TypeSource) (tag : String) (imports : List Import) : List String :=
  (imports.filter (!·.wildcard)).foldl (fun found i =>
    match importedName? i.name tag with
    | some candidate => source.addCandidate found candidate
    | none => found) []

def wildcardCandidates (source : TypeSource) (tag : String) (imports : List Import) : List String :=
  (imports.filter (·.wildcard)).foldl (fun found i =>
    source.addCandidate found (i.name ++ "." ++ tag)) []

/-- The qualified name of a tag, if there is one. Single imports come before wildcard imports, and
several matches at one level are ambiguous.
-/
def resolveType (source : TypeSource) (tag : String) (imports : List Import)
    : Except AmbiguousType (Option String) :=
  match alias? tag with
  | some name => .ok (some name)
  | none =>
    if isPrimitive tag then .ok (some tag)
    else
      match source.explicitCandidates tag imports, source.wildcardCandidates tag imports with
      | [name], _ => .ok (some name)
      | a :: b :: more, _ => .error ⟨tag, a :: b :: more⟩
      | [], [name] => .ok (some name)
      | [], a :: b :: more => .error ⟨tag, a :: b :: more⟩
      | [], [] => .ok (if tag.toList.contains '.' && source.hasType tag then some tag else none)

/-- Whether a value of type `value` may stand where `target` is declared: it is the same type or an
ancestor, whole numbers widen, and lists go item by item.
-/
def isAssignable (source : TypeSource) (target value : String) : Bool :=
  if target == value || target == "object" then true
  else if target == "float" && (value == "int" || value == "bool") then true
  else
    match h : listItem? target, listItem? value with
    | some targetItem, some valueItem =>
      have := listItem?_length h
      source.isAssignable targetItem valueItem
    | some _, none | none, some _ => false
    | none, none =>
      match mapTypes? target, mapTypes? value with
      | some _, some _ => true
      | some _, none | none, some _ => false
      | none, none => (source.describe value).any (·.bases.contains target)
termination_by target.length

end TypeSource

end Fxml
