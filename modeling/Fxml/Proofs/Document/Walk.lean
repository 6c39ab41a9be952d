import Mathlib.Data.List.Infix
import Fxml.Document.Basic

/-! The nodes of a tree by their end tags. A node stands after all that is in it, and the nodes of a
subtree stand together.
-/

open List

namespace Fxml.Node

mutual

/-- The nodes of a subtree in the order of their end tags. -/
def postorder : Node → List Node
  | object p n o t i a children x => postorderAll children ++ [object p n o t i a children x]
  | property p n m a children x => postorderAll children ++ [property p n m a children x]
  | staticProperty p n o m children x =>
    postorderAll children ++ [staticProperty p n o m children x]
  | define p n children => postorderAll children ++ [define p n children]
  | node => [node]

def postorderAll : List Node → List Node
  | [] => []
  | node :: rest => postorder node ++ postorderAll rest

end

theorem postorder_eq (node : Node) : node.postorder = postorderAll node.children ++ [node] := by
  cases node <;> rfl

theorem postorderAll_append (nodes more : List Node)
    : postorderAll (nodes ++ more) = postorderAll nodes ++ postorderAll more := by
  induction nodes with
  | nil => rfl
  | cons node rest ih => simp [postorderAll, ih]

theorem walk_eq (node : Node) : node.walk = node :: walkAll node.children := by
  cases node <;> rfl

theorem sizeOf_children_lt (node : Node) : sizeOf node.children < sizeOf node := by
  cases node with
  | object | property | staticProperty | define =>
    simp only [children, object.sizeOf_spec, property.sizeOf_spec, staticProperty.sizeOf_spec,
      define.sizeOf_spec]
    omega
  | constant pos | reference pos | copy pos | inclusion pos =>
    cases pos
    simp only [children, nil.sizeOf_spec, constant.sizeOf_spec, reference.sizeOf_spec,
      copy.sizeOf_spec, inclusion.sizeOf_spec, Position.mk.sizeOf_spec]
    omega

mutual

/-- Both orders list the same nodes. -/
theorem postorder_perm_walk (node : Node) : node.postorder.Perm node.walk := by
  rw [postorder_eq, walk_eq]
  have inner := postorderAll_perm_walkAll node.children
  exact (perm_append_singleton node _).trans (inner.cons node)
termination_by sizeOf node
decreasing_by exact sizeOf_children_lt node

theorem postorderAll_perm_walkAll (nodes : List Node)
    : (postorderAll nodes).Perm (walkAll nodes) := by
  cases nodes with
  | nil => exact .refl _
  | cons node rest =>
    exact (postorder_perm_walk node).append (postorderAll_perm_walkAll rest)
termination_by sizeOf nodes

end

theorem mem_postorder {node other : Node} : other ∈ node.postorder ↔ other ∈ node.walk :=
  (postorder_perm_walk node).mem_iff

theorem mem_walk_self (node : Node) : node ∈ node.walk := by
  rw [walk_eq]
  exact mem_cons_self

theorem mem_walkAll {nodes : List Node} {other : Node}
    : other ∈ walkAll nodes ↔ ∃ node ∈ nodes, other ∈ node.walk := by
  induction nodes with
  | nil => simp [walkAll]
  | cons node rest ih => simp [walkAll, ih]

mutual

/-- The nodes of a subtree stand together. -/
theorem isInfix_postorder {node other : Node} (member : other ∈ node.walk)
    : other.postorder <:+: node.postorder := by
  rw [walk_eq] at member
  rcases mem_cons.mp member with rfl | inner
  · exact infix_refl _
  rw [postorder_eq node]
  exact (isInfix_postorderAll inner).trans (prefix_append _ _).isInfix
termination_by sizeOf node
decreasing_by exact sizeOf_children_lt node

theorem isInfix_postorderAll {nodes : List Node} {other : Node} (member : other ∈ walkAll nodes)
    : other.postorder <:+: postorderAll nodes := by
  cases nodes with
  | nil => cases member
  | cons node rest =>
    rcases mem_append.mp member with here | later
    · exact (isInfix_postorder here).trans (prefix_append _ _).isInfix
    · exact (isInfix_postorderAll later).trans (suffix_append _ _).isInfix
termination_by sizeOf nodes

end

/-- Where ranks grow with the end tags, a node has the highest rank of all that are in it. -/
theorem order_le_of_mem_walk {root node other : Node}
    (sorted : root.postorder.Pairwise fun a b => a.order < b.order) (member : node ∈ root.walk)
    (inner : other ∈ node.walk)
    : other.order ≤ node.order := by
  have own := sorted.sublist (isInfix_postorder member).sublist
  have listed := mem_postorder.mpr inner
  rw [postorder_eq] at own listed
  rcases mem_append.mp listed with before | last
  · exact Nat.le_of_lt ((pairwise_append.mp own).2.2 other before node mem_cons_self)
  · rw [mem_singleton.mp last]

end Fxml.Node
