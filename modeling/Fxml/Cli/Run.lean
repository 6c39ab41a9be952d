import Fxml.Cli.Options
import Fxml.Files.Tree
import Fxml.Files.Utf8
import Fxml.Resource
import Fxml.Types.Catalog

/-! A run of the command line on a tree of files. -/

namespace Fxml.Cli

structure Outcome where
  exit : Nat
  out : String := ""
  err : String := ""
  tree : FileTree

inductive Failure where
  | badDigits
  | badCatalog (error : Catalog.Error)
  | badResources (error : Utf8.Error)
  | badPath
  /-- A generated text has no encoding. -/
  | unencodable
deriving DecidableEq

inductive Abort where
  | reported (exit : Nat) (message : String)
  | failed (failure : Failure)
deriving DecidableEq

def cannotOpen (path : String) : Abort := .reported 1 ("cannot open '" ++ path ++ "'")

/-- The documents that inputs name; a directory stands for all documents below it. -/
def collectInputs (t : FileTree) : List String → Except Abort (List String)
  | [] => .ok []
  | name :: rest => do
    let paths ←
      if t.isDirectory name then
        let found := (t.filesBelow name).filter (·.endsWith ".fxml")
        pure ((found.map (Path.join name)).mergeSort fun a b => decide (a ≤ b))
      else if t.isFile name then pure [name]
      else throw (cannotOpen name)
    return paths ++ (← collectInputs t rest)

def readSource (t : FileTree) (path : String) : Except Abort (String × String) :=
  match t.read path with
  | .error _ => .error (cannotOpen path)
  | .ok bytes =>
    match Utf8.decode bytes with
    | .ok text => .ok (path, text)
    | .error _ => .error (.reported 1 ("invalid utf-8 in '" ++ path ++ "'"))

def plainText (bytes : List UInt8) : Except Utf8.Error String := do
  return String.ofList (Text.normalizeNewlines (← Utf8.decode bytes).toList)

def loadTypes (t : FileTree) (path : String) : Except Abort TypeSource :=
  let bad (message : String) : Except Abort TypeSource :=
    .error (.reported 1 ("bad type catalog '" ++ path ++ "': " ++ message))
  match t.read path with
  | .error _ => .error (cannotOpen path)
  | .ok bytes =>
    match plainText bytes with
    | .error e => bad e.message
    | .ok text =>
      match Json.read? text with
      | none => bad "invalid JSON"
      | some data =>
        match Catalog.ofJson data with
        | .ok types => .ok types
        | .error (.notATable type) => .error (.failed (.badCatalog (.notATable type)))
        | .error e => bad e.message

def loadResources (t : FileTree) (path : String) : Except Abort (Table String) :=
  match t.read path with
  | .error _ => .error (cannotOpen path)
  | .ok bytes =>
    match plainText bytes with
    | .ok text => .ok (Resource.read text)
    | .error e => .error (.failed (.badResources e))

def includedFile (t : FileTree) (root path : String) : FileAnswer :=
  match t.read (Path.join root path) with
  | .error e => .unreadable e.message
  | .ok bytes =>
    match plainText bytes with
    | .ok text => .text text
    | .error e => .undecodable e.message

def indexModule (package : String) : String :=
  if package = "" then "builders" else package ++ ".builders"

def outputs (o : Options) (results : List CompileResult) : List (String × Option String) :=
  (results.filterMap (·.unit)).map (fun u => (u.file, u.text))
    ++ (if o.index then
      [(moduleFile (indexModule o.package), some (indexOf results o.package))] else [])

/-- The generated files one after the other; several are named. -/
def shownOutputs : List (String × Option String) → Except Failure String
  | [(_, text)] => encodable text
  | outputs => do
    let shown ← outputs.mapM fun (file, text) => return "# " ++ file ++ "\n" ++ (← encodable text)
    return "\n".intercalate shown
where
  encodable (text : Option String) : Except Failure String := text.elim (.error .unencodable) .ok

/-- The directories above a file, the nearest first. -/
def packageDirectories (file : String) : List String :=
  let parts := (Path.parts file).dropLast
  ((List.range parts.length).reverse.map fun n => FileTree.key (parts.take (n + 1)))

/-- Makes a package directory known as one, unless it is already. -/
def markPackage (outDir : String) (t : FileTree) (directory : String)
    : FileTree × Option FileTree.Error :=
  let marker := Path.join (Path.join outDir directory) "__init__.py"
  match t.locate marker with
  | .ok _ => (t, none)
  | .error _ =>
    match t.write marker [] with
    | .ok t => (t, none)
    | .error e => (t, some e)

/-- Writes a generated file with the directories it needs; what was done before a failure stays. -/
def writeOutput (outDir : String) (t : FileTree) (file text : String)
    : FileTree × Option FileTree.Error :=
  let target := Path.join outDir file
  match t.makeDirectories (Path.directory target) with
  | .error e => (t, some e)
  | .ok (t, _) =>
    let marked := (packageDirectories file).foldl (fun (t, failed) directory =>
      match failed with
      | none => markPackage outDir t directory
      | some e => (t, some e)) (t, none)
    match marked with
    | (t, some e) => (t, some e)
    | (t, none) =>
      match t.write target (Utf8.encode text) with
      | .ok t => (t, none)
      | .error e => (t, some e)

/-- Writes generated files in turn until one cannot be written, whose path is given. A text without
an encoding leaves an empty file.
-/
def writeOutputs (outDir : String) (t : FileTree)
    : List (String × Option String) → Except Failure (FileTree × Option String)
  | [] => .ok (t, none)
  | (file, text) :: rest =>
    match writeOutput outDir t file (text.getD "") with
    | (t, none) => if text.isSome then writeOutputs outDir t rest else .error .unencodable
    | (t, some _) => .ok (t, some (Path.join outDir file))

def errorLine (message : String) : String := "error: " ++ message ++ "\n"

/-- The outcome of compiled documents: reports, then what the options ask to be shown or written. -/
def present (o : Options) (t : FileTree) (results : List CompileResult)
    : Except Failure Outcome := do
  let reports := results.flatMap fun r => r.diagnostics.items.map (·.render ++ "\n")
  let err := String.join reports
  let failed := results.any (!·.ok)
  let exit := if failed then 1 else 0
  match stage? o.stopAt, o.outDir with
  | some .parse, _ => return { exit, err, tree := t }
  | some .resolve, _ =>
    let orders := results.filterMap fun r =>
      r.plan.map fun p => r.path ++ ": " ++ " ".intercalate p.order ++ "\n"
    return { exit, out := String.join orders, err, tree := t }
  | _, none => return { exit, out := ← shownOutputs (outputs o results), err, tree := t }
  | _, some outDir =>
    match ← writeOutputs outDir t (outputs o results) with
    | (tree, none) => return { exit, err, tree }
    | (tree, some path) =>
      return { exit := 1, err := err ++ errorLine ("cannot write '" ++ path ++ "'"), tree }

/-- Compiles the inputs of options. `introspected` are the types that are known without a catalog. -/
def compileInputs (introspected : TypeSource) (o : Options) (t : FileTree)
    : Except Abort (List CompileResult) := do
  let paths ← collectInputs t o.inputs
  if paths.isEmpty then throw (.reported 2 "no documents found")
  let sources ← paths.mapM (readSource t)
  let types ← match o.types with
    | none => pure introspected
    | some path => loadTypes t path
  let resources ← match o.resources with
    | none => pure none
    | some path => (loadResources t path).map some
  let root := o.root.getD "."
  let settings : CompileSettings :=
    { types, package := o.package, working := t.place, sourceRoot := o.root, resources
      stopAt := (stage? o.stopAt).getD .generate
      file := includedFile t root
      depth := (t.entries.length + 1) * ((Path.parts root).length + 2) }
  match settings.compileBatch (Table.ofList sources) with
  | .ok results => return results
  | .error _ => throw (.failed .badPath)

def run (introspected : TypeSource) (args : List String) (t : FileTree) : Except Failure Outcome :=
  match Options.read args with
  | .error .help => .ok { exit := 0, out := usage, tree := t }
  | .error (.wrong e) => .ok { exit := 2, err := errorLine e.message, tree := t }
  | .error .badDigits => .error .badDigits
  | .ok o =>
    match compileInputs introspected o t with
    | .ok results => present o t results
    | .error (.reported exit message) => .ok { exit, err := errorLine message, tree := t }
    | .error (.failed failure) => .error failure

end Fxml.Cli
