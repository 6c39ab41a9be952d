import Fxml.Position

/-! Diagnostics: positioned reports collected while a document is compiled. -/

namespace Fxml

inductive Severity where
  | error
  | warning
  /-- A fault of the compiler itself. -/
  | internal
deriving DecidableEq

inductive Kind where
  | malformedExpression
  | malformedDocument
  | unknownType
  | unknownAttribute
  | unknownProperty
  | invalidDefaultProperty
  | unknownReference
  | duplicateId
  | cyclicDependency
  | ambiguousControllerBinding
  | invalidValue
  | noConstructor
  | includeFailed
  | typeMismatch
  | generationInvariantViolation
  | internalError
  /-- A kind outside the compiler's own list. -/
  | other (name : String)
deriving DecidableEq

namespace Severity

def name : Severity → String
  | error => "error"
  | warning => "warning"
  | internal => "internal"

end Severity

namespace Kind

def name : Kind → String
  | malformedExpression => "MalformedExpression"
  | malformedDocument => "MalformedDocument"
  | unknownType => "UnknownType"
  | unknownAttribute => "UnknownAttribute"
  | unknownProperty => "UnknownProperty"
  | invalidDefaultProperty => "InvalidDefaultProperty"
  | unknownReference => "UnknownReference"
  | duplicateId => "DuplicateId"
  | cyclicDependency => "CyclicDependency"
  | ambiguousControllerBinding => "AmbiguousControllerBinding"
  | invalidValue => "InvalidValue"
  | noConstructor => "NoConstructor"
  | includeFailed => "IncludeFailed"
  | typeMismatch => "TypeMismatch"
  | generationInvariantViolation => "GenerationInvariantViolation"
  | internalError => "InternalError"
  | other name => name

def all : List Kind :=
  [malformedExpression, malformedDocument, unknownType, unknownAttribute, unknownProperty,
   invalidDefaultProperty, unknownReference, duplicateId, cyclicDependency,
   ambiguousControllerBinding, invalidValue, noConstructor, includeFailed, typeMismatch,
   generationInvariantViolation, internalError]

def ofName (name : String) : Kind := (all.find? fun k => k.name == name).getD (.other name)

end Kind

structure Diagnostic where
  severity : Severity
  kind : Kind
  message : String
  file : String
  pos : Position
  /-- The elements a cycle runs through, in cycle order. -/
  related : List String := []
deriving DecidableEq

namespace Diagnostic

def isError (d : Diagnostic) : Bool := d.severity != .warning

def body (d : Diagnostic) : String := "[" ++ d.kind.name ++ "] " ++ d.message

def render (d : Diagnostic) : String :=
  d.file ++ ":" ++ d.pos.text ++ ": " ++ d.severity.name ++ ": " ++ d.body

def summary (d : Diagnostic) : String :=
  d.severity.name ++ ":" ++ d.pos.text ++ ": " ++ d.body

end Diagnostic

/-- A positioned fault that ends a stage: its kind, message and place. -/
structure Fault where
  kind : Kind
  message : String
  pos : Position
deriving DecidableEq

/-- A fault is the compiler's own when the generator finds its input inconsistent. -/
def Fault.severity (f : Fault) : Severity :=
  if f.kind = .generationInvariantViolation then .internal else .error

/-- The reports of one document, or of a batch, in the order they were made. -/
structure Diagnostics where
  file : String := "<string>"
  items : List Diagnostic := []
deriving DecidableEq

namespace Diagnostics

def add (ds : Diagnostics) (severity : Severity) (kind : Kind) (message : String)
    (pos : Position) (related : List String := [])
    : Diagnostics :=
  { ds with items := ds.items ++ [⟨severity, kind, message, ds.file, pos, related⟩] }

def addFault (ds : Diagnostics) (f : Fault) : Diagnostics :=
  ds.add f.severity f.kind f.message f.pos

/-- The reports of another collection follow, each with its own file. -/
def extend (ds other : Diagnostics) : Diagnostics :=
  { ds with items := ds.items ++ other.items }

def withSeverity (ds : Diagnostics) (s : Severity) : List Diagnostic :=
  ds.items.filter (·.severity == s)

def errors (ds : Diagnostics) : List Diagnostic := ds.withSeverity .error

def warnings (ds : Diagnostics) : List Diagnostic := ds.withSeverity .warning

def ofKind (ds : Diagnostics) (k : Kind) : List Diagnostic := ds.items.filter (·.kind == k)

def ok (ds : Diagnostics) : Bool := ds.items.all (!·.isError)

end Diagnostics

end Fxml
