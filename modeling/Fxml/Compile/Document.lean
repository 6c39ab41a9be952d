import Fxml.Code.Emit
import Fxml.Document.Parser
import Fxml.Planning.Document

/-! Compiled units: the generated text of a document and what it offers, and the index over several
of them. -/

namespace Fxml

structure CompiledUnit where
  path : String
  module : String
  className : String
  /-- The generated text; none if no string holds it. -/
  text : Option String
  ids : Table String
  rootType : String
  controllerType : Option String
  exports : List String

def moduleFile (module : String) : String := (module.map fun c => if c = '.' then '/' else c) ++ ".py"

namespace CompiledUnit

def file (u : CompiledUnit) : String := moduleFile u.module

def ofPlan (p : Plan) (text : Option String) : CompiledUnit where
  path := p.path
  module := p.module
  className := p.className
  text := text
  ids := p.registry.filterMap fun (id, var) => (p.elements.get? var).map fun e => (id, e.type)
  rootType := p.rootType
  controllerType := p.controller.map (·.type)
  exports := p.exports

/-- The modules of units in the order of their names, each once. -/
def modules (units : List CompiledUnit) : List String :=
  ((units.map (·.module)).mergeSort fun a b => decide (a ≤ b)).eraseDups

/-- The text of a module that maps the paths of documents to their builder classes. -/
def indexText (units : List CompiledUnit) (package : String) : String :=
  let title := "Builder index" ++ (if package = "" then "" else " for " ++ package)
  let imports := (modules units).map ("import " ++ ·)
  let entries := (units.mergeSort fun a b => decide (a.path ≤ b.path)).map fun u =>
    "    " ++ Text.literal u.path ++ ": " ++ u.module ++ "." ++ u.className ++ ","
  let lines := ["\"\"\"" ++ title ++ ". Generated; do not edit.\"\"\"", "",
      "from fx2py import runtime"]
    ++ (if imports.isEmpty then [] else "" :: imports)
    ++ ["", "BUILDERS = \x7b"] ++ entries ++ ["\x7d", "", "loader = runtime.Loader(BUILDERS)"]
  String.join (lines.map (· ++ "\n"))

end CompiledUnit

end Fxml

/-! Compilation of one document: reading, planning and code generation. -/

namespace Fxml

inductive Stage where
  | parse | resolve | generate
deriving DecidableEq

inductive FileAnswer where
  | text (s : String)
  | unreadable (reason : String)
  | undecodable (reason : String)
  | failed (message : String)
deriving DecidableEq

structure CompileSettings where
  types : TypeSource
  package : String := ""
  /-- The directory that relative paths start at. -/
  working : String := "/"
  /-- The directory that document paths are relative to. -/
  sourceRoot : Option String := none
  resources : Option (Table String) := none
  stopAt : Stage := .generate
  file : String → FileAnswer := fun _ => .unreadable "No such file or directory"
  /-- A number that no chain of distinct documents including each other exceeds. -/
  depth : Nat := 0

/-- The outcome of one document: a unit, or the reasons why there is none. -/
structure CompileResult where
  path : String
  diagnostics : Diagnostics
  plan : Option Plan := none
  unit : Option CompiledUnit := none
  skipped : Bool := false

namespace CompileResult

def ok (r : CompileResult) : Bool := r.diagnostics.ok

def summary (r : CompileResult) : String :=
  "CompileResult(" ++ r.path ++ ", " ++ (if r.ok then "ok" else "failed") ++ ")"

/-- Why a document whose compilation has errors cannot be included. A cycle of includes is passed on
as it is.
-/
def errorFault (r : CompileResult) : IncludeFault :=
  let cycle := (r.diagnostics.ofKind .cyclicDependency).head?.filter
    (·.message.startsWith "include cycle")
  match cycle with
  | some d => ⟨.cyclicDependency, d.message⟩
  | none =>
    let detail := (r.diagnostics.errors.head?.map (": " ++ ·.render)).getD ""
    ⟨.includeFailed, "included document '" ++ r.path ++ "' has errors" ++ detail⟩

def target (r : CompileResult) : Except IncludeFault IncludeTarget :=
  if !r.ok then .error r.errorFault
  else
    match r.skipped, r.plan with
    | false, some p =>
      .ok ⟨r.path, p.module, p.className, p.rootType, p.controller.map (·.type), p.exports⟩
    | _, _ => .error ⟨.includeFailed, "included document '" ++ r.path ++ "' is not compiled"⟩

end CompileResult

namespace CompileSettings

def reserved (s : CompileSettings) : List String :=
  "fx2py" :: (if s.package = "" then [] else [Naming.firstPart s.package])

/-- Looks up an included document, given how its text is compiled. What was found out about a path
before is used again, except that a document on the stack closes a cycle.
-/
def lookup (s : CompileSettings) (compile : String → String → Lookup CompileResult)
    (stack : List String) (path : String) : Lookup (Except IncludeFault IncludeTarget) := do
  if stack.contains path then
    let message := "include cycle: " ++ " -> ".intercalate (stack ++ [path])
    return .error ⟨.cyclicDependency, message⟩
  match (← get).get? path with
  | some known => return known
  | none =>
    let found ← included
    modify (·.put path found)
    return found
where
  included : Lookup (Except IncludeFault IncludeTarget) := do
    match s.file path with
    | .text text => return (← compile path text).target
    | .unreadable reason => return failed ("cannot read included document '" ++ path ++ "': " ++ reason)
    | .undecodable reason =>
      return failed ("cannot decode included document '" ++ path ++ "': " ++ reason)
    | .failed message => throw (.loader message)
  failed (message : String) : Except IncludeFault IncludeTarget :=
    .error ⟨.includeFailed, message⟩

def generateUnit (result : CompileResult) (plan : Plan) : Lookup CompileResult :=
  match Code.generate plan with
  | .ok m =>
    match m.source with
    | .ok text => return { result with unit := some (.ofPlan plan text) }
    | .error halt => throw (.halted halt)
  | .error e =>
    match e.toFault? with
    | some fault => return { result with diagnostics := result.diagnostics.addFault fault }
    | none => throw .generator

/-- Plans a document and generates its unit if there are no errors. -/
def compileParsed (s : CompileSettings) (stopAt : Stage) (document : Document)
    (loader : Option (String → Lookup (Except IncludeFault IncludeTarget)))
    (diagnostics : Diagnostics) : Lookup CompileResult := do
  let settings : PlanSettings :=
    { types := s.types, resources := s.resources, loader, reserved := s.reserved }
  let path := document.path
  let (plan, diagnostics) ← document.plan settings (Path.moduleName path s.package)
    (Path.className path) diagnostics
  let result : CompileResult := { path, diagnostics, plan }
  match plan with
  | some p =>
    if diagnostics.ok && stopAt != .resolve then generateUnit result p else return result
  | none => return result

/-- Compiles the text of a document. `stack` holds the paths of the documents that lead to it by
includes, its own last, and `depth` bounds how many more may follow.
-/
def compileWithin (s : CompileSettings) (depth : Nat) (stopAt : Stage) (stack : List String)
    (path text : String) : Lookup CompileResult :=
  match Document.read text path with
  | .error (.halt reason) => throw (.halted reason)
  | .error (.fault e) => return { path, diagnostics := Diagnostics.addFault { file := path } e.toFault }
  | .ok document =>
    let diagnostics := document.expressionErrors.foldl (·.addFault ·.toFault) { file := path }
    if !document.compile then return { path, diagnostics, skipped := true }
    else if stopAt = .parse then return { path, diagnostics }
    else
      let loader := match depth with
        | 0 => none
        | depth + 1 => some fun included =>
          s.lookup (compileWithin s depth .resolve (stack ++ [included])) stack included
      s.compileParsed stopAt document loader diagnostics

def compile (s : CompileSettings) (path text : String) : Lookup CompileResult :=
  s.compileWithin (s.depth + 1) s.stopAt [path] path text

end CompileSettings

/-! Compilation of several documents, which may include each other. -/

def Crash.message : Crash → String
  | loader message => "RuntimeError: " ++ message
  | noName hint => "RuntimeError: no name for " ++ hint
  | generator => "RuntimeError: incomplete plan"
  | halted reason => reason.message

namespace CompileSettings

def compileOne (s : CompileSettings) (path text : String)
    : Except Path.Error (Except Crash CompileResult) := do
  let reported ← Path.reported s.working s.sourceRoot path
  return ((s.compile reported text).run.run []).1

/-- Compiles one document of a batch. An unexpected failure stays with it. -/
def compileMember (s : CompileSettings) (path text : String) : StateM IncludeCache CompileResult := do
  match ← (s.compile path text).run with
  | .ok result => return result
  | .error crash =>
    let diagnostics := Diagnostics.add { file := path } .internal .internalError crash.message .start
    return { path, diagnostics }

def named (s : CompileSettings) (sources : Table String) : Except Path.Error (Table String) :=
  sources.mapM fun (path, text) => do
    return (← Path.reported s.working s.sourceRoot path, text)

def sharing (s : CompileSettings) (texts : Table String) : CompileSettings :=
  { s with
    depth := s.depth + texts.length
    file := fun path => (texts.get? path).elim (s.file path) .text }

/-- Compiles documents in turn. Includes are looked up among the documents themselves first, and
what is found out about them is shared.
-/
def compileBatch (s : CompileSettings) (sources : Table String)
    : Except Path.Error (List CompileResult) := do
  let reported ← s.named sources
  let shared := s.sharing (Table.ofList reported)
  return ((reported.mapM fun (path, text) => shared.compileMember path text).run []).1

end CompileSettings

def indexOf (results : List CompileResult) (package : String) : String :=
  CompiledUnit.indexText (results.filterMap (·.unit)) package

end Fxml
