import Mathlib.Logic.Relation
import Fxml.Planning.State

/-! Which nodes of a document get an element. A node is placed when every construct around it takes
it in, and a copy is grounded when following its source, copy by copy, ends at an object.
-/

open List

namespace Fxml.Node

/-! ### Placed nodes -/

/-- What encloses a node. -/
inductive Place where
  | object
  | property
  | attached
  | definition
deriving DecidableEq

mutual

/-- The nodes of a subtree that stand for an object where the constructs around them take them. -/
def placed (place : Place) : Node → List Node
  | object pos order origin tag id attributes children text =>
    object pos order origin tag id attributes children text :: placedAll .object children
  | property _ _ _ _ children _ => if place = .object then placedAll .property children else []
  | staticProperty _ _ _ _ children _ =>
    if place = .object then placedAll .attached children else []
  | define _ _ children =>
    if place = .object ∨ place = .property then placedAll .definition children else []
  | reference .. => []
  | node => [node]

def placedAll (place : Place) : List Node → List Node
  | [] => []
  | node :: rest => placed place node ++ placedAll place rest

end

mutual

theorem placed_subset_walk (place : Place) (node : Node) : placed place node ⊆ walk node := by
  cases node with
  | object pos order origin tag id attributes children text =>
    rw [placed, walk]
    exact cons_subset_cons _ (placedAll_subset_walkAll .object children)
  | property pos order name attributes children text =>
    rw [placed, walk]
    split
    · exact Subset.trans (placedAll_subset_walkAll .property children) (subset_cons_self _ _)
    · exact nil_subset _
  | staticProperty pos order owner name children text =>
    rw [placed, walk]
    split
    · exact Subset.trans (placedAll_subset_walkAll .attached children) (subset_cons_self _ _)
    · exact nil_subset _
  | define pos order children =>
    rw [placed, walk]
    split
    · exact Subset.trans (placedAll_subset_walkAll .definition children) (subset_cons_self _ _)
    · exact nil_subset _
  | reference => exact nil_subset _
  | constant => exact Subset.refl _
  | copy => exact Subset.refl _
  | inclusion => exact Subset.refl _
termination_by sizeOf node

theorem placedAll_subset_walkAll (place : Place) (nodes : List Node)
    : placedAll place nodes ⊆ walkAll nodes := by
  cases nodes with
  | nil => exact nil_subset _
  | cons node rest =>
    rw [placedAll, walkAll]
    exact append_subset.mpr
      ⟨subset_append_of_subset_left _ (placed_subset_walk place node),
        subset_append_of_subset_right _ (placedAll_subset_walkAll place rest)⟩
termination_by sizeOf nodes

end

/-! ### Grounded nodes -/

/-- Following copies from a node ends at an object that is no copy. -/
inductive Grounded (registry : Table Entry) : Node → Prop
  | object (pos : Position) (order : Nat) (origin : Origin) (tag : String) (id : Option String)
    (attributes : List Attribute) (children : List Node) (text : Option Value)
    : Grounded registry (.object pos order origin tag id attributes children text)
  | constant (pos : Position) (order : Nat) (tag name : String) (id : Option String)
    : Grounded registry (.constant pos order tag name id)
  | inclusion (pos : Position) (order : Nat) (source : String) (id resources : Option String)
    : Grounded registry (.inclusion pos order source id resources)
  | copy (pos : Position) (order : Nat) {source : String} (id : Option String) {entry : Entry}
    (declared : registry.get? source = some entry) (ends : Grounded registry entry.node)
    : Grounded registry (.copy pos order source id)

/-- A copy is followed to the node that declares its source. -/
inductive Follows (registry : Table Entry) : Node → Node → Prop
  | copy (pos : Position) (order : Nat) {source : String} (id : Option String) {entry : Entry}
    (declared : registry.get? source = some entry)
    : Follows registry (.copy pos order source id) entry.node

theorem grounded_copy_iff {registry : Table Entry} {pos : Position} {order : Nat}
    {source : String} {id : Option String} {entry : Entry}
    (declared : registry.get? source = some entry)
    : Grounded registry (.copy pos order source id) ↔ Grounded registry entry.node := by
  constructor
  · intro h
    cases h with
    | copy _ _ _ declared' ends =>
      rw [declared] at declared'
      exact Option.some.inj declared' ▸ ends
  · exact .copy pos order id declared

/-- Copies that lead around to each other are not grounded: each has one source only. -/
theorem Grounded.not_cyclic {registry : Table Entry} {node : Node} (h : Grounded registry node)
    : ¬Relation.TransGen (Follows registry) node node := by
  induction h with
  | object | constant | inclusion =>
    intro cycle
    obtain ⟨_, step, _⟩ := Relation.TransGen.head'_iff.mp cycle
    cases step
  | copy pos order id declared _ ih =>
    intro cycle
    obtain ⟨next, step, back⟩ := Relation.TransGen.head'_iff.mp cycle
    cases step with
    | copy _ _ _ declared' =>
      rw [declared] at declared'
      cases declared'
      exact ih (Relation.TransGen.tail' back (.copy pos order id declared))

end Fxml.Node
