import Fxml.Expr.Basic
import Fxml.Halt

/-! Generated code: terms, statements and their text. -/

namespace Fxml.Code

inductive Term where
  | literal (value : Scalar)
  | halves (value : Text.Halves)
  | var (name : String)
  /-- A name that is imported or always there, such as a class with its module. -/
  | global (path : String)
  | attr (target : Term) (name : String)
  | call (target : Term) (args : List Term)
  | callNamed (target : Term) (args : List (String × Term))
  | index (target key : Term)
  | list (items : List Term)
  | map (entries : List (Term × Term))
  | unary (op : UnaryOp) (operand : Term)
  | binary (op : BinaryOp) (left right : Term)

def unaryText : UnaryOp → String
  | .not => "not "
  | .neg => "-"

def binaryText : BinaryOp → String
  | .and => "and"
  | .or => "or"
  | op => op.symbol

namespace Term

mutual

/-- The text of a term. Operators stand in parentheses. What no string holds is shown instead. -/
def text : Term → String
  | literal value => value.spelling
  | halves value => Text.literal value.shown
  | var name => name
  | global path => path
  | attr target name => text target ++ "." ++ name
  | call target args => text target ++ "(" ++ ", ".intercalate (texts args) ++ ")"
  | callNamed target args => text target ++ "(" ++ ", ".intercalate (namedTexts args) ++ ")"
  | index target key => text target ++ "[" ++ text key ++ "]"
  | list items => "[" ++ ", ".intercalate (texts items) ++ "]"
  | map entries => "\x7b" ++ ", ".intercalate (entryTexts entries) ++ "\x7d"
  | unary op operand => "(" ++ unaryText op ++ text operand ++ ")"
  | binary op left right => "(" ++ text left ++ " " ++ binaryText op ++ " " ++ text right ++ ")"

def texts : List Term → List String
  | [] => []
  | t :: rest => text t :: texts rest

def namedTexts : List (String × Term) → List String
  | [] => []
  | (name, t) :: rest => (name ++ "=" ++ text t) :: namedTexts rest

def entryTexts : List (Term × Term) → List String
  | [] => []
  | (key, value) :: rest => (text key ++ ": " ++ text value) :: entryTexts rest

end

mutual

/-- Whether all parts of a term that have no parts themselves pass a test. -/
def all (test : Term → Bool) : Term → Bool
  | attr target _ => all test target
  | call target args => all test target && allOf test args
  | callNamed target args => all test target && allNamed test args
  | index target key => all test target && all test key
  | list items => allOf test items
  | map entries => allEntries test entries
  | unary _ operand => all test operand
  | binary _ left right => all test left && all test right
  | t => test t

def allOf (test : Term → Bool) : List Term → Bool
  | [] => true
  | t :: rest => all test t && allOf test rest

def allNamed (test : Term → Bool) : List (String × Term) → Bool
  | [] => true
  | (_, t) :: rest => all test t && allNamed test rest

def allEntries (test : Term → Bool) : List (Term × Term) → Bool
  | [] => true
  | (key, value) :: rest => all test key && all test value && allEntries test rest

end

/-- Whether a term is no number with more digits than are written. -/
def isShort : Term → Bool
  | literal value => !value.isLong
  | _ => true

/-- Whether a string holds a term. -/
def isWhole : Term → Bool
  | halves _ => false
  | _ => true

def string (s : String) : Term := literal (.text s)

def support (name : String) : Term := global ("runtime." ++ name)

end Term

/-- The text of code made of the given terms. A number that is too long cannot be written, and text
with halves in it is no string.
-/
def written (terms : List Term) (text : String) : Except Halt (Option String) :=
  if !terms.all (·.all Term.isShort) then .error .unwrittenNumber
  else .ok (if terms.all (·.all Term.isWhole) then some text else none)

def Term.source (t : Term) : Except Halt (Option String) := written [t] t.text

/-- A constant of generated code: a scalar, or a list of constants. -/
inductive Constant where
  | scalar (value : Scalar)
  | list (items : List Constant)

namespace Constant

mutual

def term : Constant → Term
  | scalar value => .literal value
  | list items => .list (terms items)

def terms : List Constant → List Term
  | [] => []
  | c :: rest => term c :: terms rest

end

def source (c : Constant) : Except Halt (Option String) := c.term.source

end Constant

inductive Statement where
  | assign (target value : Term)
  | effect (term : Term)
  | result (term : Term)

def Statement.text : Statement → String
  | assign target value => target.text ++ " = " ++ value.text
  | effect term => term.text
  | result term => "return " ++ term.text

def Statement.terms : Statement → List Term
  | assign target value => [target, value]
  | effect term | result term => [term]

/-- An imported module and, if it is known by another name, that name. -/
structure ImportLine where
  module : String
  shortName : Option String := none
deriving DecidableEq

namespace ImportLine

def reference (i : ImportLine) : String := i.shortName.getD i.module

def text (i : ImportLine) : String :=
  "import " ++ i.module ++ (i.shortName.map (" as " ++ ·)).getD ""

end ImportLine

structure Module where
  path : String
  imports : List ImportLine
  className : String
  controllerType : Term
  exports : List String
  body : List Statement

namespace Module

/-- Text constants in parentheses; a single one needs a comma. -/
def tupleText : List String → String
  | [item] => "(" ++ Text.literal item ++ ",)"
  | items => "(" ++ ", ".intercalate (items.map Text.literal) ++ ")"

def indented (depth : Nat) (line : String) : String :=
  String.ofList (List.replicate (4 * depth) ' ') ++ line

def lines (m : Module) : List String :=
  ["\"\"\"Generated from " ++ Text.escaped m.path ++ ". Do not edit.\"\"\"", "",
   "from fx2py import runtime"]
    ++ (if m.imports.isEmpty then [] else "" :: m.imports.map ImportLine.text)
    ++ ["", "", "class " ++ m.className ++ "(runtime.Builder):",
      indented 1 ("CONTROLLER_TYPE = " ++ m.controllerType.text),
      indented 1 ("EXPORTS = " ++ tupleText m.exports),
      indented 1 ("LOCATION = " ++ Text.literal m.path), "",
      indented 1 ("def build(self, controller=None, root=None, resources=None, "
        ++ "controller_factory=None):")]
    ++ m.body.map (indented 2 ·.text)

def text (m : Module) : String := String.join (m.lines.map (· ++ "\n"))

def source (m : Module) : Except Halt (Option String) :=
  written (m.controllerType :: m.body.flatMap Statement.terms) m.text

end Module

end Fxml.Code
