import Fxml.Expr.Basic
import Fxml.Expr.Error
import Fxml.Table

/-! Documents: the tree of markup nodes with what instructions and namespaces declare. -/

namespace Fxml

/-- An attribute of a node. The value is absent when it is malformed; a static property names the
type that owns it.
-/
structure Attribute where
  pos : Position
  owner : Option String
  name : String
  raw : String
  valuePos : Position
  value : Option Value

inductive Origin where
  | construct
  | value (text : String)
  | factory (method : String)
  | root
deriving DecidableEq

/-- A node of a document. `order` is its rank among the nodes by the place of the end tag. -/
inductive Node where
  | object (pos : Position) (order : Nat) (origin : Origin) (tag : String)
      (id : Option String) (attributes : List Attribute) (children : List Node)
      (text : Option Value)
  | constant (pos : Position) (order : Nat) (tag name : String) (id : Option String)
  | property (pos : Position) (order : Nat) (name : String) (attributes : List Attribute)
      (children : List Node) (text : Option Value)
  /-- A property that another type attaches to the enclosing object. -/
  | staticProperty (pos : Position) (order : Nat) (owner name : String)
      (children : List Node) (text : Option Value)
  /-- Objects that are built and named but not put anywhere. -/
  | define (pos : Position) (order : Nat) (children : List Node)
  | reference (pos : Position) (order : Nat) (source : String)
  | copy (pos : Position) (order : Nat) (source : String) (id : Option String)
  | inclusion (pos : Position) (order : Nat) (source : String) (id : Option String)
      (resources : Option String)

namespace Node

def pos : Node → Position
  | object p .. | constant p .. | property p .. | staticProperty p .. | define p ..
  | reference p .. | copy p .. | inclusion p .. => p

def order : Node → Nat
  | object _ n .. | constant _ n .. | property _ n .. | staticProperty _ n .. | define _ n ..
  | reference _ n .. | copy _ n .. | inclusion _ n .. => n

def id? : Node → Option String
  | object _ _ _ _ id .. => id
  | constant _ _ _ _ id => id
  | copy _ _ _ id => id
  | inclusion _ _ _ id _ => id
  | _ => none

def children : Node → List Node
  | object _ _ _ _ _ _ children _ => children
  | property _ _ _ _ children _ => children
  | staticProperty _ _ _ _ children _ => children
  | define _ _ children => children
  | _ => []

mutual

/-- The nodes of a subtree in the order of their start tags. -/
def walk : Node → List Node
  | object p n o t i a children x => object p n o t i a children x :: walkAll children
  | property p n m a children x => property p n m a children x :: walkAll children
  | staticProperty p n o m children x => staticProperty p n o m children x :: walkAll children
  | define p n children => define p n children :: walkAll children
  | node => [node]

def walkAll : List Node → List Node
  | [] => []
  | node :: rest => walk node ++ walkAll rest

end

end Node

/-- An imported name, or with a wildcard all names of a package. -/
structure Import where
  pos : Position
  name : String
  wildcard : Bool
deriving DecidableEq

structure Header where
  imports : List Import := []
  controller : Option String := none
  controllerPos : Option Position := none
  language : Option String := none
  /-- Whether the document is to be compiled at all. -/
  compile : Bool := true
  exports : List String := []
  namespaces : Table String := []
  /-- Attribute values that are malformed; the rest of the document is intact. -/
  expressionErrors : List ExprError := []

structure Document extends Header where
  path : String
  root : Node

end Fxml
