import Fxml.Path

/-! A tree of files, seen from the directory that relative paths start at. -/

namespace Fxml

inductive FileEntry where
  | file (bytes : List UInt8)
  | directory
deriving DecidableEq

/-- The entries by their paths in normal form. The directory at the top has none; `place` is where it
is found among all files.
-/
structure FileTree where
  entries : Table FileEntry := []
  place : String := "/"

namespace FileTree

inductive Error where
  | notFound
  | notADirectory
  | isADirectory
deriving DecidableEq

def Error.message : Error → String
  | notFound => "No such file or directory"
  | notADirectory => "Not a directory"
  | isADirectory => "Is a directory"

def key (parts : List String) : String := "/".intercalate parts

def entryAt? (t : FileTree) (parts : List String) : Option FileEntry :=
  if parts.isEmpty then some .directory else t.entries.get? (key parts)

/-- Goes one part further, from an entry that must be a directory. -/
def descend (t : FileTree) (parts : List String) (next : String) : Except Error (List String) :=
  match t.entryAt? parts with
  | none => .error .notFound
  | some (.file _) => .error .notADirectory
  | some .directory =>
    if next = "" || next = "." then .ok parts
    else if next = ".." then
      if parts.isEmpty then .error .notFound else .ok parts.dropLast
    else .ok (parts ++ [next])

/-- Where a path leads, and what is there. Nothing is known outside of the tree. -/
def locate (t : FileTree) (path : String) : Except Error (List String × FileEntry) := do
  if path = "" || Path.isAbsolute path then throw .notFound
  let parts ← (Path.parts path).foldlM t.descend []
  match t.entryAt? parts with
  | some entry => return (parts, entry)
  | none => throw .notFound

def isDirectory (t : FileTree) (path : String) : Bool :=
  match t.locate path with
  | .ok (_, .directory) => true
  | _ => false

def isFile (t : FileTree) (path : String) : Bool :=
  match t.locate path with
  | .ok (_, .file _) => true
  | _ => false

def read (t : FileTree) (path : String) : Except Error (List UInt8) := do
  match ← t.locate path with
  | (_, .file bytes) => return bytes
  | (_, .directory) => throw .isADirectory

/-- The files below a directory, each by the way from the directory to it. -/
def filesBelow (t : FileTree) (path : String) : List String :=
  match t.locate path with
  | .ok (top, .directory) =>
    t.entries.filterMap fun (name, entry) =>
      let parts := Path.parts name
      match entry with
      | .file _ => if top.isPrefixOf parts then some (key (parts.drop top.length)) else none
      | .directory => none
  | _ => []

def putEntry (t : FileTree) (parts : List String) (entry : FileEntry) : FileTree :=
  { t with entries := t.entries.put (key parts) entry }

/-- Goes one part further and makes a directory there if there is nothing. -/
def makeDirectory (place : FileTree × List String) (next : String)
    : Except Error (FileTree × List String) := do
  let (t, parts) := place
  let parts ← t.descend parts next
  match t.entryAt? parts with
  | some .directory => return (t, parts)
  | some (.file _) => throw .notADirectory
  | none => return (t.putEntry parts .directory, parts)

/-- Makes the directories that a path leads through, and the place where it ends. -/
def makeDirectories (t : FileTree) (path : String) : Except Error (FileTree × List String) :=
  if path = "" || Path.isAbsolute path then .error .notFound
  else (Path.parts path).foldlM makeDirectory (t, [])

def write (t : FileTree) (path : String) (bytes : List UInt8) : Except Error FileTree := do
  let (head, name) := (Path.directory path, Path.baseName path)
  let parts ← if head = "" then pure [] else do
    match ← t.locate head with
    | (parts, .directory) => pure parts
    | (_, .file _) => throw .notADirectory
  let parts ← t.descend parts name
  match t.entryAt? parts with
  | some .directory => throw .isADirectory
  | _ => return t.putEntry parts (.file bytes)

/-- A tree from its entries; the directories above them are made. -/
def ofEntries (place : String) (entries : List (String × FileEntry)) : FileTree :=
  entries.foldl (fun t (path, entry) =>
    let parts := Path.normalParts path
    let above := (List.range parts.length).map parts.take
    let t := (above.filter (!·.isEmpty)).foldl (fun t dir =>
      if (t.entryAt? dir).isSome then t else t.putEntry dir .directory) t
    match entry, t.entryAt? parts with
    | .directory, some _ => t
    | _, _ => t.putEntry parts entry) { place }

def changedSince (t earlier : FileTree) : List (String × List UInt8) :=
  t.entries.filterMap fun (path, entry) =>
    match entry with
    | .file bytes =>
      if earlier.entries.get? path = some entry then none else some (path, bytes)
    | .directory => none

end FileTree

end Fxml
