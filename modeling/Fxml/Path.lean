import Fxml.Naming.Style

/-! Paths with slashes between their parts, and the names that documents get from their paths. -/

namespace Fxml.Path

def parts (path : String) : List String := (path.toList.splitOn '/').map String.ofList

def isAbsolute (path : String) : Bool := path.toList.head? = some '/'

/-- How many slashes a normal form keeps in front: exactly two stay, more become one. -/
def rootSlashes (path : String) : Nat :=
  match path.toList.takeWhile (· == '/') with
  | [] => 0
  | [_, _] => 2
  | _ => 1

/-- Takes a part into a normal form, whose parts stand with the last first. A step up removes the
part before it, stays when there is none, and is dropped at the root.
-/
def step (rooted : Bool) (done : List String) (part : String) : List String :=
  if part = "" || part = "." then done
  else if part = ".." then
    match done with
    | [] => if rooted then [] else [".."]
    | ".." :: _ => ".." :: done
    | _ :: rest => rest
  else part :: done

def normalParts (path : String) : List String :=
  ((parts path).foldl (step (isAbsolute path)) []).reverse

/-- The path without empty parts, dots and steps up that can be taken. -/
def normalize (path : String) : String :=
  let text := String.ofList (List.replicate (rootSlashes path) '/')
    ++ "/".intercalate (normalParts path)
  if text = "" then "." else text

/-- The characters before the last slash, the slash included, and those after it. -/
def splitLastSlash (path : String) : List Char × List Char :=
  let tail := (path.toList.reverse.takeWhile (· != '/')).reverse
  (path.toList.take (path.length - tail.length), tail)

def baseName (path : String) : String := String.ofList (splitLastSlash path).2

def directory (path : String) : String :=
  let head := (splitLastSlash path).1
  if head.all (· == '/') then String.ofList head
  else String.ofList (head.reverse.dropWhile (· == '/')).reverse

def join (base path : String) : String :=
  if isAbsolute path then path
  else if base = "" || base.toList.getLast? = some '/' then base ++ path
  else base ++ "/" ++ path

/-- A path without the extension of its last part. Dots in front of that part start none. -/
def dropExtension (path : String) : String :=
  let (head, tail) := splitLastSlash path
  let dots := tail.takeWhile (· == '.')
  let name := tail.drop dots.length
  if name.contains '.' then
    let extension := (name.reverse.takeWhile (· != '.')).length + 1
    String.ofList (head ++ dots ++ name.take (name.length - extension))
  else path

/-- The path that leads from a document to what it names: relative to its directory, or to the
source root after a slash.
-/
def resolve (document path : String) : String :=
  if isAbsolute path then normalize (String.ofList (path.toList.drop 1))
  else normalize (join (directory document) path)

/-- The way from one place to another, by steps up and then down. Relative places are seen from the
working directory.
-/
def relative (working start path : String) : String :=
  let startParts := normalParts (join working start)
  let pathParts := normalParts (join working path)
  let shared := ((startParts.zip pathParts).takeWhile fun (a, b) => a == b).length
  match List.replicate (startParts.length - shared) ".." ++ pathParts.drop shared with
  | [] => "."
  | steps => "/".intercalate steps

/-- An empty path is no place below a directory. -/
inductive Error where
  | noPath
deriving DecidableEq

def Error.message : Error → String
  | noPath => "no path specified"

/-- A document's path as it is reported: below the source root if it is there, in normal form. A
path that would begin with two dots is not taken for one below the root.
-/
def reported (working : String) (root : Option String) (path : String) : Except Error String :=
  match root with
  | some root =>
    if isAbsolute path = isAbsolute root then
      if path = "" then .error .noPath
      else
        let way := relative working root path
        .ok (normalize (if way.startsWith ".." then path else way))
    else .ok (normalize path)
  | none => .ok (normalize path)

def moduleName (path package : String) : String :=
  let named := (parts (dropExtension path)).filter fun p => p != "" && p != "."
  let names := named.map Naming.identifier
  ".".intercalate (if package = "" then names else package :: names)

def className (path : String) : String :=
  Naming.pascal (Naming.identifier (dropExtension (baseName path))) ++ "Builder"

end Fxml.Path
