import Fxml.Table
import Fxml.Text.Blank
import Fxml.Text.Case
import Fxml.Text.Word

/-! Names that a generated Python module cannot use for its variables. -/

open Fxml.Text

namespace Fxml.Naming

def keywords : List String :=
  ["False", "None", "True", "and", "as", "assert", "async", "await", "break", "class",
   "continue", "def", "del", "elif", "else", "except", "finally", "for", "from", "global", "if",
   "import", "in", "is", "lambda", "nonlocal", "not", "or", "pass", "raise", "return", "try",
   "while", "with", "yield"]

def isKeyword (name : String) : Bool := keywords.contains name

def builtinNames : List String :=
  ["ArithmeticError", "AssertionError", "AttributeError", "BaseException", "BaseExceptionGroup",
   "BlockingIOError", "BrokenPipeError", "BufferError", "BytesWarning", "ChildProcessError",
   "ConnectionAbortedError", "ConnectionError", "ConnectionRefusedError", "ConnectionResetError",
   "DeprecationWarning", "EOFError", "Ellipsis", "EncodingWarning", "EnvironmentError",
   "Exception", "ExceptionGroup", "False", "FileExistsError", "FileNotFoundError",
   "FloatingPointError", "FutureWarning", "GeneratorExit", "IOError", "ImportError",
   "ImportWarning", "IndentationError", "IndexError", "InterruptedError", "IsADirectoryError",
   "KeyError", "KeyboardInterrupt", "LookupError", "MemoryError", "ModuleNotFoundError",
   "NameError", "None", "NotADirectoryError", "NotImplemented", "NotImplementedError", "OSError",
   "OverflowError", "PendingDeprecationWarning", "PermissionError", "ProcessLookupError",
   "RecursionError", "ReferenceError", "ResourceWarning", "RuntimeError", "RuntimeWarning",
   "StopAsyncIteration", "StopIteration", "SyntaxError", "SyntaxWarning", "SystemError",
   "SystemExit", "TabError", "TimeoutError", "True", "TypeError", "UnboundLocalError",
   "UnicodeDecodeError", "UnicodeEncodeError", "UnicodeError", "UnicodeTranslateError",
   "UnicodeWarning", "UserWarning", "ValueError", "Warning", "ZeroDivisionError",
   "__build_class__", "__debug__", "__doc__", "__import__", "__loader__", "__name__",
   "__package__", "__spec__", "abs", "aiter", "all", "anext", "any", "ascii", "bin", "bool",
   "breakpoint", "bytearray", "bytes", "callable", "chr", "classmethod", "compile", "complex",
   "copyright", "credits", "delattr", "dict", "dir", "divmod", "enumerate", "eval", "exec",
   "exit", "filter", "float", "format", "frozenset", "getattr", "globals", "hasattr", "hash",
   "help", "hex", "id", "input", "int", "isinstance", "issubclass", "iter", "len", "license",
   "list", "locals", "map", "max", "memoryview", "min", "next", "object", "oct", "open", "ord",
   "pow", "print", "property", "quit", "range", "repr", "reversed", "round", "set", "setattr",
   "slice", "sorted", "staticmethod", "str", "sum", "super", "tuple", "type", "vars", "zip"]

/-- What every object has, and every module: the module of the names above has it too. -/
def moduleAttributes : List String :=
  ["__annotations__", "__class__", "__delattr__", "__dict__", "__dir__", "__eq__", "__format__",
   "__ge__", "__getattribute__", "__getstate__", "__gt__", "__hash__", "__init__",
   "__init_subclass__", "__le__", "__lt__", "__ne__", "__new__", "__reduce__", "__reduce_ex__",
   "__repr__", "__setattr__", "__sizeof__", "__str__", "__subclasshook__"]

def isBuiltin (name : String) : Bool :=
  builtinNames.contains name || moduleAttributes.contains name

/-- The names the generated method uses for its own parameters and its support library. -/
def buildNames : List String :=
  ["self", "controller", "root", "resources", "controller_factory", "runtime"]

/-- A dotted name up to its first dot. -/
def firstPart (name : String) : String := String.ofList (name.toList.takeWhile (· != '.'))

end Fxml.Naming

/-! Naming styles: snake case, Pascal case, and identifiers from arbitrary text. -/

namespace Fxml.Naming

/-- Puts an underscore before each capitalised word that follows a character. `inWord` says that the
lower-case run of such a word is under way; its letters cannot come before the next word.
-/
def breakBeforeWords (inWord : Bool) : List Char → List Char
  | c :: upper :: lower :: rest =>
    if inWord && isAsciiLower c then c :: breakBeforeWords true (upper :: lower :: rest)
    else if c != '\n' && isAsciiUpper upper && isAsciiLower lower then
      c :: '_' :: upper :: breakBeforeWords true (lower :: rest)
    else c :: breakBeforeWords false (upper :: lower :: rest)
  | cs => cs

/-- Puts an underscore between a lower-case letter or digit and a capital. -/
def breakBeforeCapitals : List Char → List Char
  | c :: next :: rest =>
    if (isAsciiLower c || isAsciiDigit c) && isAsciiUpper next then
      c :: '_' :: breakBeforeCapitals (next :: rest)
    else c :: breakBeforeCapitals (next :: rest)
  | cs => cs

def dropUnderscore : List Char → List Char
  | '_' :: rest => rest
  | cs => cs

def snake (name : String) : String :=
  let cs := dropUnderscore name.toList
  if cs.contains '_' || isLowerText (String.ofList cs) then lower (String.ofList cs)
  else lower (String.ofList (breakBeforeCapitals (breakBeforeWords false cs)))

def capitalize : List Char → List Char
  | [] => []
  | c :: rest => upperChar c ++ rest

def pascal (name : String) : String :=
  String.ofList (((dropUnderscore name.toList).splitOn '_').flatMap capitalize)

/-- Runs of characters that belong to no word become one underscore. `inRun` says that such a run is
under way.
-/
def joinWords (inRun : Bool) : List Char → List Char
  | [] => []
  | c :: rest =>
    if isWord c then c :: joinWords false rest
    else if inRun then joinWords true rest
    else '_' :: joinWords true rest

def identifier (name : String) : String :=
  let cs := trimBy (· == '_') (joinWords false (snake name).toList)
  let named := match cs with
    | [] => "n_"
    | c :: _ => if isDigit c then "n_" ++ String.ofList cs else String.ofList cs
  if isKeyword named then named ++ "_" else named

end Fxml.Naming

/-! Unique variable names for one generated method. -/

namespace Fxml

/-- The names in use, and the last number given out for each base name. -/
structure Namer where
  taken : List String := Naming.buildNames
  counters : Table Nat := []

namespace Namer

def avoiding (reserved : List String) : Namer := { taken := Naming.buildNames ++ reserved }

def usable (n : Namer) (name : String) : Bool :=
  isIdentifier name && !Naming.isKeyword name && !Naming.isBuiltin name && !n.taken.contains name

def claim? (n : Namer) (name : String) : Option Namer :=
  if n.usable name then some { n with taken := name :: n.taken } else none

def numbered (base : String) (number : Nat) : String := base ++ "_" ++ toString number

/-- The first usable number after `last`, among the next `tries`. -/
def nextNumber? (n : Namer) (base : String) (last : Nat) : Nat → Option Nat
  | 0 => none
  | tries + 1 =>
    if n.usable (numbered base (last + 1)) then some (last + 1)
    else nextNumber? n base (last + 1) tries

/-- A new name made from a hint: the base name with the next free number. One more try than there
are names in use is enough, so none comes out only when no number makes the base name usable.
-/
def fresh? (n : Namer) (hint : String) : Option (String × Namer) :=
  let base := Naming.identifier hint
  let last := (n.counters.get? base).getD 0
  match n.nextNumber? base last (n.taken.length + 1) with
  | none => none
  | some number =>
    let name := numbered base number
    some (name, ⟨name :: n.taken, n.counters.put base number⟩)

end Namer

end Fxml
