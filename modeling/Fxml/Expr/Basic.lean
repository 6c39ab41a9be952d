import Fxml.Position
import Fxml.Scalar

/-! Expressions of markup values, and the forms a value can take. -/

namespace Fxml

inductive BinaryOp where
  | or | and
  | eq | ne
  | lt | le | gt | ge
  | add | sub
  | mul | div | mod
deriving DecidableEq

inductive UnaryOp where
  | neg | not
deriving DecidableEq

namespace BinaryOp

def symbol : BinaryOp → String
  | or => "||"
  | and => "&&"
  | eq => "=="
  | ne => "!="
  | lt => "<"
  | le => "<="
  | gt => ">"
  | ge => ">="
  | add => "+"
  | sub => "-"
  | mul => "*"
  | div => "/"
  | mod => "%"

end BinaryOp

def UnaryOp.symbol : UnaryOp → String
  | .neg => "-"
  | .not => "!"

/-- An expression tree. Every node keeps the place of the token that made it. -/
inductive Expr where
  | const (pos : Position) (value : Scalar)
  /-- Text that no string holds. -/
  | halves (pos : Position) (value : Text.Halves)
  /-- An element by its id, or the controller. -/
  | ref (pos : Position) (name : String)
  | path (pos : Position) (target : Expr) (name : String)
  /-- A method call with at most one argument. -/
  | call (pos : Position) (target : Expr) (name : String) (args : List Expr)
  | index (pos : Position) (target key : Expr)
  | list (pos : Position) (items : List Expr)
  | map (pos : Position) (entries : List (Expr × Expr))
  | unary (pos : Position) (op : UnaryOp) (operand : Expr)
  | binary (pos : Position) (op : BinaryOp) (left right : Expr)

namespace Expr

def pos : Expr → Position
  | const p _ | halves p _ | ref p _ | path p _ _ | call p _ _ _ | index p _ _ | list p _ | map p _
  | unary p _ _ | binary p _ _ _ => p

def controllerName : String := "controller"

end Expr

/-- The value of an attribute or of element text, by its first characters. -/
inductive Value where
  /-- Literal text, read as the type it is put to. -/
  | text (pos : Position) (text : String)
  /-- A place relative to the document. -/
  | location (pos : Position) (path : String)
  | resource (pos : Position) (key : String)
  | binding (pos : Position) (expr : Expr)
  | once (expr : Expr)
  | method (pos : Position) (name : String)

def Value.pos : Value → Position
  | .text p _ | .location p _ | .resource p _ | .binding p _ | .method p _ => p
  | .once e => e.pos

/-! The ids that expressions refer to. -/

structure Reference where
  pos : Position
  name : String
deriving DecidableEq

def Reference.isController (r : Reference) : Bool := r.name == Expr.controllerName

namespace Expr

mutual

def references : Expr → List Reference
  | const _ _ | halves _ _ => []
  | ref pos name => [⟨pos, name⟩]
  | path _ target _ => references target
  | call _ target _ args => references target ++ referencesOfAll args
  | index _ target key => references target ++ references key
  | list _ items => referencesOfAll items
  | map _ entries => referencesOfEntries entries
  | unary _ _ operand => references operand
  | binary _ _ left right => references left ++ references right

def referencesOfAll : List Expr → List Reference
  | [] => []
  | e :: rest => references e ++ referencesOfAll rest

def referencesOfEntries : List (Expr × Expr) → List Reference
  | [] => []
  | (key, value) :: rest => references key ++ references value ++ referencesOfEntries rest

end

end Expr

def Value.references : Value → List Reference
  | .once e | .binding _ e => e.references
  | _ => []

end Fxml
