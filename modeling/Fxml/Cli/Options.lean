import Fxml.Compile.Document

/-! The command line: options and what is said about wrong ones. -/

namespace Fxml.Cli

def usage : String := "fx2py [OPTIONS] INPUT...

Compile markup documents to Python builder modules. INPUT is a document
or a directory searched for *.fxml files.

Options:
  --types FILE        JSON type catalog (default: introspect Python classes)
  --package NAME      Package prefix for generated modules
  --root DIR          Source root; document paths are relative to it
  --resources FILE    key=value resource bundle used to check %key values
  --out-dir DIR       Write modules under DIR instead of stdout
  --stop-at STAGE     Stop after stage: parse, resolve, generate
  --jobs N            Compile N documents in parallel
  --index             Also emit a builder index module
  --help              Show this help message
"

structure Options where
  types : Option String := none
  package : String := ""
  root : Option String := none
  resources : Option String := none
  outDir : Option String := none
  stopAt : String := "generate"
  jobs : Option Nat := none
  index : Bool := false
  inputs : List String := []
deriving DecidableEq

inductive UsageError where
  | noArgument (flag : String)
  | badJobs
  | unknownFlag (flag : String)
  | unknownStage (name : String)
  | badPackage (name : String)
  | noInput
deriving DecidableEq

def UsageError.message : UsageError → String
  | noArgument flag => flag ++ " requires an argument"
  | badJobs => "--jobs takes a positive integer"
  | unknownFlag flag => "unknown flag '" ++ flag ++ "'"
  | unknownStage name => "unknown stage '" ++ name ++ "'"
  | badPackage name => "invalid package name '" ++ name ++ "'"
  | noInput => "no input provided"

inductive Stop where
  | help
  | wrong (error : UsageError)
  /-- A digit that has no decimal value stands in a number, or the number has too many digits. -/
  | badDigits
deriving DecidableEq

def takesValue (flag : String) : Bool :=
  ["--types", "--package", "--root", "--resources", "--out-dir", "--stop-at", "--jobs"].contains
    flag

def readJobs (value : String) : Except Stop Nat :=
  let cs := value.toList
  if cs.isEmpty || !cs.all Text.isDigit then .error (.wrong .badJobs)
  else if !cs.all Text.isDecimal || Text.digitLimit < cs.length then .error .badDigits
  else
    let n := Text.decimalNumber cs
    if n < 1 then .error (.wrong .badJobs) else .ok n

def setOption (o : Options) (flag value : String) : Except Stop Options :=
  match flag with
  | "--types" => .ok { o with types := value }
  | "--package" => .ok { o with package := value }
  | "--root" => .ok { o with root := value }
  | "--resources" => .ok { o with resources := value }
  | "--out-dir" => .ok { o with outDir := value }
  | "--stop-at" => .ok { o with stopAt := value }
  | _ => (readJobs value).map fun n => { o with jobs := n }

/-- Reads arguments from left to right; a later option replaces an earlier one. -/
def readArguments (o : Options) : List String → Except Stop Options
  | [] => .ok o
  | [arg] =>
    if arg = "--help" || arg = "-h" then .error .help
    else if takesValue arg then .error (.wrong (.noArgument arg))
    else if arg = "--index" then .ok { o with index := true }
    else if arg.startsWith "-" then .error (.wrong (.unknownFlag arg))
    else .ok { o with inputs := o.inputs ++ [arg] }
  | arg :: value :: rest =>
    if arg = "--help" || arg = "-h" then .error .help
    else if takesValue arg then do readArguments (← setOption o arg value) rest
    else if arg = "--index" then readArguments { o with index := true } (value :: rest)
    else if arg.startsWith "-" then .error (.wrong (.unknownFlag arg))
    else readArguments { o with inputs := o.inputs ++ [arg] } (value :: rest)

def stage? : String → Option Stage
  | "parse" => some .parse
  | "resolve" => some .resolve
  | "generate" => some .generate
  | _ => none

/-- Whether a name is a package: identifiers with dots between them. -/
def isPackage (name : String) : Bool :=
  (name.toList.splitOn '.').all fun part => Text.isIdentifier (String.ofList part)

def Options.read (args : List String) : Except Stop Options := do
  let o ← readArguments {} args
  if (stage? o.stopAt).isNone then throw (.wrong (.unknownStage o.stopAt))
  if o.package != "" && !isPackage o.package then throw (.wrong (.badPackage o.package))
  if o.inputs.isEmpty then throw (.wrong .noInput)
  return o

end Fxml.Cli
