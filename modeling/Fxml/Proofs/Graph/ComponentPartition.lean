import Mathlib.Data.List.Pairwise
import Fxml.Proofs.Graph.ComponentSearch
import Fxml.Proofs.Graph.WellFormed

/-! The components of a graph partition its nodes by strong connection. -/

open List

namespace Fxml.Graph

open Relation

variable {g : Graph} {key : String} {nodes : List String}

/-- Each of two nodes leads to the other. -/
def StronglyConnected (g : Graph) (a b : String) : Prop :=
  ReflTransGen g.Edge a b ∧ ReflTransGen g.Edge b a

theorem StronglyConnected.refl (g : Graph) (a : String) : g.StronglyConnected a a :=
  ⟨.refl, .refl⟩

theorem StronglyConnected.symm {a b : String} (h : g.StronglyConnected a b)
    : g.StronglyConnected b a :=
  ⟨h.2, h.1⟩

theorem StronglyConnected.trans {a b c : String} (h : g.StronglyConnected a b)
    (next : g.StronglyConnected b c)
    : g.StronglyConnected a c :=
  ⟨h.1.trans next.1, next.2.trans h.2⟩

theorem WellFormed.areComponents (wf : g.WellFormed)
    : AreComponents g.keys g.dependencies g.components := by
  obtain ⟨found, result, h⟩ :=
    exists_components wf.unique fun a b (edge : g.Edge a b) => wf.target_mem edge
  rwa [components, result]

theorem WellFormed.disjoint_components (wf : g.WellFormed) : g.components.Pairwise Disjoint :=
  (nodup_flatten.mp (wf.areComponents.nodes.nodup_iff.mpr wf.unique)).2

/-- The component of a node; none when there is no such node. -/
def classOf (g : Graph) (key : String) : List String :=
  (g.components.find? (·.contains key)).getD []

theorem WellFormed.classOf_eq (wf : g.WellFormed) (member : nodes ∈ g.components)
    (inside : key ∈ nodes)
    : g.classOf key = nodes := by
  obtain ⟨found, result⟩ : ∃ found, g.components.find? (·.contains key) = some found :=
    Option.isSome_iff_exists.mp (find?_isSome.mpr ⟨nodes, member, by simpa using inside⟩)
  have here : key ∈ found := by simpa using find?_some result
  rw [classOf, result, Option.getD_some]
  by_contra different
  have : Std.Symm (Disjoint (α := String)) := ⟨fun _ _ apart _ first second => apart second first⟩
  exact wf.disjoint_components.forall (mem_of_find?_eq_some result) member different here inside

theorem WellFormed.classOf_mem_components (wf : g.WellFormed) (h : key ∈ g.keys)
    : g.classOf key ∈ g.components := by
  obtain ⟨nodes, member, inside⟩ := mem_flatten.mp (wf.areComponents.nodes.mem_iff.mpr h)
  rwa [wf.classOf_eq member inside]

theorem WellFormed.classOf_of_not_mem (wf : g.WellFormed) (h : key ∉ g.keys)
    : g.classOf key = [] := by
  rw [classOf, find?_eq_none.mpr, Option.getD_none]
  intro nodes member inside
  refine h (wf.areComponents.nodes.mem_iff.mp (mem_flatten.mpr ⟨nodes, member, ?_⟩))
  simpa using inside

/-- A node outside the graph leads to no other. -/
theorem StronglyConnected.eq_of_not_mem {a b : String} (h : g.StronglyConnected a b)
    (absent : a ∉ g.keys)
    : a = b := by
  rcases ReflTransGen.cases_head h.1 with same | ⟨_, edge, _⟩
  · exact same
  · exact absurd edge.source_mem absent

section

variable (wf : g.WellFormed)
include wf

theorem WellFormed.mem_classOf {other : String}
    : other ∈ g.classOf key ↔ other ∈ g.keys ∧ g.StronglyConnected key other := by
  by_cases node : key ∈ g.keys
  · have together := wf.areComponents.together (b := other) node
    constructor
    · intro inside
      obtain ⟨nodes, there, own⟩ := mem_flatten.mp (wf.areComponents.nodes.mem_iff.mpr node)
      rw [wf.classOf_eq there own] at inside
      exact ⟨wf.areComponents.nodes.mem_iff.mp (mem_flatten.mpr ⟨nodes, there, inside⟩),
        together.mp ⟨nodes, there, own, inside⟩⟩
    · rintro ⟨_, connected⟩
      obtain ⟨nodes, there, own, inside⟩ := together.mpr connected
      rwa [wf.classOf_eq there own]
  · rw [wf.classOf_of_not_mem node]
    refine iff_of_false not_mem_nil ?_
    rintro ⟨there, connected⟩
    exact node (connected.eq_of_not_mem node ▸ there)

theorem WellFormed.mem_components (h : nodes ∈ g.components)
    : ∃ key ∈ g.keys, nodes = g.classOf key := by
  obtain ⟨key, inside, _⟩ := wf.areComponents.classes nodes h
  exact ⟨key, wf.areComponents.nodes.mem_iff.mp (mem_flatten.mpr ⟨nodes, h, inside⟩),
    (wf.classOf_eq h inside).symm⟩

theorem WellFormed.classOf_congr {a b : String} (h : g.StronglyConnected a b)
    : g.classOf a = g.classOf b := by
  by_cases node : a ∈ g.keys
  · obtain ⟨nodes, member, first, second⟩ := (wf.areComponents.together node).mpr h
    rw [wf.classOf_eq member first, wf.classOf_eq member second]
  · rw [h.eq_of_not_mem node]

theorem WellFormed.nodup_classOf (key : String) : (g.classOf key).Nodup := by
  by_cases node : key ∈ g.keys
  · exact (nodup_flatten.mp (wf.areComponents.nodes.nodup_iff.mpr wf.unique)).1 _
      (wf.classOf_mem_components node)
  · rw [wf.classOf_of_not_mem node]
    exact nodup_nil

/-- Nodes of different components are not strongly connected. -/
theorem WellFormed.components_separate
    : g.components.Pairwise fun first second =>
        ∀ a ∈ first, ∀ b ∈ second, ¬g.StronglyConnected a b := by
  refine (Pairwise.and_mem.mp wf.disjoint_components).imp ?_
  rintro first second ⟨member, member', apart⟩ a ha b hb connected
  have same := wf.classOf_congr connected
  rw [wf.classOf_eq member ha, wf.classOf_eq member' hb] at same
  exact apart ha (same ▸ ha)

end

end Fxml.Graph
