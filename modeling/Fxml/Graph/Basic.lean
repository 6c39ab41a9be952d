import Fxml.Table

/-! Dependency graphs: nodes with priorities, and edges from a node to what must come before it. -/

namespace Fxml

/-- A node: its key, its priority, and the keys it depends on without repetition. -/
structure GraphNode where
  key : String
  priority : Int
  dependencies : List String := []
deriving DecidableEq

/-- A dependency graph with its nodes in the order they were added. -/
structure Graph where
  nodes : List GraphNode := []
deriving DecidableEq

namespace Graph

def keys (g : Graph) : List String := g.nodes.map (·.key)

def node? (g : Graph) (key : String) : Option GraphNode := g.nodes.find? (·.key == key)

def contains (g : Graph) (key : String) : Bool := (g.node? key).isSome

/-- What a node depends on; nothing when there is no such node. -/
def dependencies (g : Graph) (key : String) : List String :=
  ((g.node? key).map (·.dependencies)).getD []

def priority (g : Graph) (key : String) : Int := ((g.node? key).map (·.priority)).getD 0

/-- Adds a node without edges. A key that is there keeps its node. -/
def addNode (g : Graph) (key : String) (priority : Int) : Graph :=
  if g.contains key then g else ⟨g.nodes ++ [{ key := key, priority := priority }]⟩

def GraphNode.addDependency (n : GraphNode) (key : String) : GraphNode :=
  if n.dependencies.contains key then n else { n with dependencies := n.dependencies ++ [key] }

/-- Makes a node depend on another; nothing happens unless both are there. -/
def addEdge (g : Graph) (dependent dependency : String) : Graph :=
  if g.contains dependent && g.contains dependency then
    ⟨g.nodes.map fun n =>
      if n.key == dependent then GraphNode.addDependency n dependency else n⟩
  else g

def restrict (g : Graph) (keep : String → Bool) : Graph :=
  ⟨(g.nodes.filter (keep ·.key)).map fun n =>
    { n with dependencies := n.dependencies.filter keep }⟩

end Graph

end Fxml

/-! The construction order, by Kahn's algorithm: dependencies first, and among what is ready the lowest
priority.
-/

namespace Fxml.Graph

/-- Whether an entry of the queue comes before another: by priority, then by key. -/
def precedes (a b : Int × String) : Bool := a.1 < b.1 || (a.1 == b.1 && a.2 < b.2)

/-- Puts an entry into the queue, whose first entry is the next one. -/
def push (entry : Int × String) : List (Int × String) → List (Int × String)
  | [] => [entry]
  | first :: rest =>
    if precedes entry first then entry :: first :: rest else first :: push entry rest

def noteDependent (node : String) (t : Table (List String)) (dependency : String)
    : Table (List String) :=
  t.put dependency ((t.get? dependency).getD [] ++ [node])

/-- The nodes that depend on each node, in the order they were added. -/
def dependents (g : Graph) : Table (List String) :=
  g.nodes.foldl (fun t n => n.dependencies.foldl (noteDependent n.key) t) (g.keys.map (·, []))

/-- The sort under way: how many nodes each node still waits for, the queue of those that wait for
none, and the nodes listed so far.
-/
structure Sorting where
  pending : Table Int
  ready : List (Int × String) := []
  listed : List String := []
deriving DecidableEq

/-- Queues a node that waits for none. -/
def Sorting.queue (g : Graph) (s : Sorting) (key : String) : Sorting :=
  if s.pending.get? key = some 0 then { s with ready := push (g.priority key, key) s.ready } else s

/-- A node that the node just listed was needed for waits for one node less. -/
def Sorting.release (g : Graph) (s : Sorting) (dependent : String) : Sorting :=
  let left := (s.pending.get? dependent).getD 0 - 1
  queue g { s with pending := s.pending.put dependent left } dependent

def Sorting.start (g : Graph) : Sorting :=
  g.keys.foldl (queue g) { pending := g.nodes.map fun n => (n.key, (n.dependencies.length : Int)) }

/-- Lists at most `steps` nodes, each the first of the queue. -/
def Sorting.run (g : Graph) (dependents : Table (List String)) : Nat → Sorting → Sorting
  | 0, s => s
  | steps + 1, s =>
    match s.ready with
    | [] => s
    | (_, key) :: rest =>
      let s := { s with ready := rest, listed := s.listed ++ [key] }
      run g dependents steps (((dependents.get? key).getD []).foldl (release g) s)

/-- The longest list that dependencies allow: a node is missing when it can reach a cycle. No node is
queued twice, so that there are no more steps than nodes.
-/
def order (g : Graph) : List String :=
  (Sorting.run g g.dependents g.nodes.length (Sorting.start g)).listed

end Fxml.Graph

/-! Strongly connected components, by a depth-first search that follows edges in key order. -/

namespace Fxml.Graph

/-- A search under way: the nodes entered with their numbers, the nodes whose component is still
open, the latest first, and the components that are complete.
-/
structure Search where
  numbers : Table Nat := []
  stack : List String := []
  components : List (List String) := []
deriving DecidableEq

def Search.enter (s : Search) (key : String) : Search :=
  { s with numbers := s.numbers.put key s.numbers.length, stack := key :: s.stack }

/-- Completes the component of the open nodes down to a node. -/
def Search.close (s : Search) (key : String) : Search :=
  { s with
    stack := (s.stack.dropWhile (· != key)).drop 1
    components := s.components ++ [s.stack.takeWhile (· != key) ++ [key]] }

/-- Searches on from a node. The number returned is the lowest one seen of an open node; where it is
the node's own, the nodes opened since form a component. `depth` bounds how deep the search goes.
-/
def connect (edges : String → List String) : Nat → String → Search → Option (Nat × Search)
  | 0, _, _ => none
  | depth + 1, key, s => do
    let number := s.numbers.length
    let follow := fun ((low, s) : Nat × Search) (next : String) =>
      match s.numbers.get? next with
      | none => (connect edges depth next s).map fun (found, s) => (min low found, s)
      | some n => some (if s.stack.contains next then min low n else low, s)
    let order := (edges key).mergeSort (fun a b => decide (a ≤ b))
    let (low, inner) ← order.foldlM follow (number, s.enter key)
    return (low, if low = number then inner.close key else inner)

/-- The strongly connected components of the given nodes, each after those that its edges lead to.
No search goes deeper than there are nodes, since none is entered twice.
-/
def strongComponents (keys : List String) (edges : String → List String)
    : Option (List (List String)) :=
  let visit (s : Search) (key : String) : Option Search :=
    if s.numbers.contains key then some s
    else (connect edges keys.length key s).map (·.2)
  (keys.foldlM visit {}).map (·.components)

def components (g : Graph) : List (List String) :=
  (strongComponents g.keys g.dependencies).getD []

/-! Reports of dependency cycles. -/

def byPriority (g : Graph) (keys : List String) : List String :=
  keys.mergeSort fun a b => decide (g.priority a ≤ g.priority b)

inductive Found where
  | cycle (path : List String)
  /-- The nodes seen, and the paths that lead to new ones. -/
  | paths (seen : List String) (next : List (List String))

def extendPath (start : String) (path : List String) : List String → Found → Found
  | [], found => found
  | _, .cycle c => .cycle c
  | key :: rest, .paths seen next =>
    if key = start then .cycle path.reverse
    else if seen.contains key then extendPath start path rest (.paths seen next)
    else extendPath start path rest (.paths (key :: seen) (next ++ [key :: path]))

def extendAll (g : Graph) (start : String) (component : List String)
    : List (List String) → Found → Found
  | [], found => found
  | path :: rest, found =>
    let last := path.head?.getD start
    let steps := g.byPriority ((g.dependencies last).filter component.contains)
    extendAll g start component rest (extendPath start path steps found)

/-- Searches a shortest way from `start` back to itself, one edge longer in each round. -/
def searchCycle (g : Graph) (start : String) (component : List String)
    : Nat → List String → List (List String) → List String
  | 0, _, _ => [start]
  | rounds + 1, seen, paths =>
    match extendAll g start component paths (.paths seen []) with
    | .cycle path => path
    | .paths seen next => searchCycle g start component rounds seen next

def cycleFrom (g : Graph) (start : String) (component : List String) : List String :=
  g.searchCycle start component (component.length + 1) [] [[start]]

/-- The key with the lowest priority; the first of several. -/
def lowest? (g : Graph) : List String → Option String
  | [] => none
  | key :: rest =>
    some (rest.foldl (fun best k => if g.priority k < g.priority best then k else best) key)

/-- Whether a component holds a cycle: it has two nodes, or one that depends on itself. -/
def isCyclic (g : Graph) : List String → Bool
  | [key] => (g.dependencies key).contains key
  | _ => true

/-- One cycle for each component that has one, in the order of the priorities of the nodes that the
cycles start with. Only nodes outside the construction order can be part of one.
-/
def cycles (g : Graph) : List (List String) :=
  let listed := g.order
  let rest := g.restrict (!listed.contains ·)
  let found := (rest.components.filter rest.isCyclic).filterMap fun component =>
    (rest.lowest? component).map fun start => rest.cycleFrom start component
  found.mergeSort fun a b =>
    decide (g.priority (a.head?.getD "") ≤ g.priority (b.head?.getD ""))

def cycleText (cycle : List String) : String := "Cycle(" ++ " -> ".intercalate cycle ++ ")"

end Fxml.Graph
