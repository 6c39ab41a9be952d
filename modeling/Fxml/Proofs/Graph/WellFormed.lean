import Mathlib.Data.List.Basic
import Mathlib.Data.List.Nodup
import Mathlib.Logic.Relation
import Fxml.Graph.Basic

/-! Dependency graphs that arise by adding nodes and edges: every key names one node, and edges lead
to nodes of the graph, at most one to each.
-/

open List

namespace Fxml.Graph

open Relation

variable {g : Graph} {key a b dependent dependency d : String} {n : GraphNode}
  {keep : String → Bool}

/-! ### Graphs made by additions -/

/-- One addition to a graph. -/
inductive Addition where
  | node (key : String) (priority : Int)
  | edge (dependent dependency : String)
deriving DecidableEq

def add (g : Graph) : Addition → Graph
  | .node key priority => g.addNode key priority
  | .edge dependent dependency => g.addEdge dependent dependency

def ofAdditions (additions : List Addition) : Graph := additions.foldl add {}

/-- A node depends directly on another. -/
def Edge (g : Graph) (a b : String) : Prop := b ∈ g.dependencies a

/-- Every key names one node, and edges lead to nodes of the graph, at most one to each. -/
structure WellFormed (g : Graph) : Prop where
  unique : g.keys.Nodup
  closed : ∀ n ∈ g.nodes, ∀ key ∈ n.dependencies, key ∈ g.keys
  single : ∀ n ∈ g.nodes, n.dependencies.Nodup

attribute [local grind =] keys Edge

/-! ### Looking up nodes -/

theorem node?_some (h : g.node? key = some n) : n ∈ g.nodes ∧ n.key = key :=
  ⟨mem_of_find?_eq_some h, by simpa using find?_some h⟩

theorem contains_iff : g.contains key = true ↔ key ∈ g.keys := by
  simp [contains, node?, keys]

theorem mem_keys (h : n ∈ g.nodes) : n.key ∈ g.keys :=
  mem_map_of_mem h

theorem exists_node (h : key ∈ g.keys) : ∃ n ∈ g.nodes, g.node? key = some n ∧ n.key = key := by
  obtain ⟨n, found⟩ := Option.isSome_iff_exists.mp (contains_iff.mpr h)
  exact ⟨n, (node?_some found).1, found, (node?_some found).2⟩

/-- The look-up finds a node that is there, since no other has its key. -/
theorem WellFormed.node?_key (wf : g.WellFormed) (h : n ∈ g.nodes) : g.node? n.key = some n := by
  obtain ⟨m, member, found, same⟩ := exists_node (mem_keys h)
  rw [found, inj_on_of_nodup_map wf.unique member h same]

theorem WellFormed.dependencies_key (wf : g.WellFormed) (h : n ∈ g.nodes)
    : g.dependencies n.key = n.dependencies := by
  simp [dependencies, wf.node?_key h]

theorem WellFormed.priority_key (wf : g.WellFormed) (h : n ∈ g.nodes)
    : g.priority n.key = n.priority := by
  simp [priority, wf.node?_key h]

theorem WellFormed.nodup_dependencies (wf : g.WellFormed) (key : String)
    : (g.dependencies key).Nodup := by
  cases found : g.node? key with
  | none => simp [dependencies, found]
  | some n => simpa [dependencies, found] using wf.single n (node?_some found).1

/-- Only nodes of the graph have edges. -/
theorem Edge.source_mem (h : g.Edge a b) : a ∈ g.keys := by
  cases found : g.node? a with
  | none => simp [Edge, dependencies, found] at h
  | some n => exact (node?_some found).2 ▸ mem_keys (node?_some found).1

theorem Edge.exists_node (h : g.Edge a b) : ∃ n ∈ g.nodes, n.key = a ∧ b ∈ n.dependencies := by
  obtain ⟨n, member, found, same⟩ := Graph.exists_node h.source_mem
  exact ⟨n, member, same, by simpa [Edge, dependencies, found] using h⟩

theorem WellFormed.edge_of_mem (wf : g.WellFormed) (h : n ∈ g.nodes) (hk : key ∈ n.dependencies)
    : g.Edge n.key key := by
  simpa [Edge, wf.dependencies_key h] using hk

theorem WellFormed.target_mem (wf : g.WellFormed) (h : g.Edge a b) : b ∈ g.keys := by
  obtain ⟨n, member, _, hb⟩ := h.exists_node
  exact wf.closed n member b hb

theorem WellFormed.reaches_mem (wf : g.WellFormed) (ha : a ∈ g.keys) (h : ReflTransGen g.Edge a b)
    : b ∈ g.keys := by
  cases h with
  | refl => exact ha
  | tail _ last => exact wf.target_mem last

/-! ### Additions keep a graph well formed -/

theorem WellFormed.empty : WellFormed {} := ⟨by simp [keys], by simp, by simp⟩

theorem keys_addNode {priority : Int}
    : (g.addNode key priority).keys = if key ∈ g.keys then g.keys else g.keys ++ [key] := by
  by_cases h : g.contains key = true
  · simp [addNode, h, contains_iff.mp h]
  · rw [if_neg (mt contains_iff.mpr h)]
    simp [addNode, h, keys]

/-- A new node has no edges, so only the keys grow. -/
theorem WellFormed.addNode (wf : g.WellFormed) (key : String) (priority : Int)
    : (g.addNode key priority).WellFormed := by
  by_cases h : g.contains key = true
  · simpa [Graph.addNode, h] using wf
  · have absent : key ∉ g.keys := mt contains_iff.mpr h
    have nodes {n : GraphNode} (member : n ∈ (g.addNode key priority).nodes)
        : n ∈ g.nodes ∨ n.dependencies = [] := by
      simp only [Graph.addNode, h, Bool.false_eq_true, ↓reduceIte, mem_append,
        mem_singleton] at member
      exact member.imp_right fun new => by rw [new]
    refine ⟨?_, fun n member d hd => ?_, fun n member => ?_⟩
    · rw [keys_addNode, if_neg absent]
      exact nodup_append.mpr ⟨wf.unique, by simp, by
          intro a ha b hb same
          exact absent (mem_singleton.mp hb ▸ same ▸ ha)⟩
    · rw [keys_addNode, if_neg absent]
      rcases nodes member with old | none
      · exact mem_append_left _ (wf.closed n old d hd)
      · simp [none] at hd
    · rcases nodes member with old | none
      · exact wf.single n old
      · rw [none]
        exact nodup_nil

/-- The node that an edge is added to, and all others as they are. -/
def withEdge (dependent dependency : String) (n : GraphNode) : GraphNode :=
  if n.key == dependent then GraphNode.addDependency n dependency else n

@[simp] theorem key_addDependency (n : GraphNode) (key : String)
    : (GraphNode.addDependency n key).key = n.key := by
  unfold GraphNode.addDependency
  split <;> rfl

@[simp] theorem key_withEdge (dependent dependency : String) (n : GraphNode)
    : (withEdge dependent dependency n).key = n.key := by
  unfold withEdge
  split <;> simp

@[simp] theorem priority_withEdge (dependent dependency : String) (n : GraphNode)
    : (withEdge dependent dependency n).priority = n.priority := by
  unfold withEdge GraphNode.addDependency
  split
  · split <;> rfl
  · rfl

theorem mem_addDependency
    : d ∈ (GraphNode.addDependency n key).dependencies ↔ d ∈ n.dependencies ∨ d = key := by
  unfold GraphNode.addDependency
  split
  · rename_i there
    exact ⟨.inl, fun h => h.elim id (fun same => same ▸ by simpa using there)⟩
  · simp

theorem mem_withEdge
    : d ∈ (withEdge dependent dependency n).dependencies
      ↔ d ∈ n.dependencies ∨ n.key = dependent ∧ d = dependency := by
  unfold withEdge
  split
  · rename_i same
    simp [mem_addDependency, beq_iff_eq.mp same]
  · rename_i other
    simp [beq_iff_eq.not.mp other]

theorem nodup_withEdge (h : n.dependencies.Nodup)
    : (withEdge dependent dependency n).dependencies.Nodup := by
  unfold withEdge GraphNode.addDependency
  split
  · split
    · exact h
    · rename_i absent
      refine nodup_append.mpr ⟨h, nodup_singleton _, ?_⟩
      rintro a ha b hb rfl
      exact absent (by simpa using mem_singleton.mp hb ▸ ha)
  · exact h

theorem nodes_addEdge (h : dependent ∈ g.keys ∧ dependency ∈ g.keys)
    : (g.addEdge dependent dependency).nodes = g.nodes.map (withEdge dependent dependency) := by
  simp only [addEdge, contains_iff.mpr h.1, contains_iff.mpr h.2, Bool.and_self, ↓reduceIte]
  rfl

theorem addEdge_of_absent (h : ¬(dependent ∈ g.keys ∧ dependency ∈ g.keys))
    : g.addEdge dependent dependency = g := by
  have : ¬(g.contains dependent = true ∧ g.contains dependency = true) := by
    simpa only [contains_iff] using h
  simp [addEdge, this]

@[simp] theorem keys_addEdge : (g.addEdge dependent dependency).keys = g.keys := by
  by_cases h : dependent ∈ g.keys ∧ dependency ∈ g.keys
  · simp [keys, nodes_addEdge h, Function.comp_def]
  · rw [addEdge_of_absent h]

theorem WellFormed.addEdge (wf : g.WellFormed) (dependent dependency : String)
    : (g.addEdge dependent dependency).WellFormed := by
  by_cases h : dependent ∈ g.keys ∧ dependency ∈ g.keys
  · refine ⟨by rw [keys_addEdge]; exact wf.unique, fun n member d hd => ?_, fun n member => ?_⟩
    · rw [keys_addEdge]
      rw [nodes_addEdge h] at member
      obtain ⟨old, there, rfl⟩ := mem_map.mp member
      rcases mem_withEdge.mp hd with before | ⟨_, new⟩
      · exact wf.closed old there d before
      · exact new ▸ h.2
    · rw [nodes_addEdge h] at member
      obtain ⟨old, there, rfl⟩ := mem_map.mp member
      exact nodup_withEdge (wf.single old there)
  · rw [addEdge_of_absent h]
    exact wf

/-- The edges after an addition are the old ones and the new one. -/
theorem WellFormed.edge_addEdge (wf : g.WellFormed) (h : dependent ∈ g.keys ∧ dependency ∈ g.keys)
    : (g.addEdge dependent dependency).Edge a b ↔ g.Edge a b ∨ a = dependent ∧ b = dependency := by
  constructor
  · intro edge
    obtain ⟨n, member, rfl, hb⟩ := edge.exists_node
    rw [nodes_addEdge h] at member
    obtain ⟨old, there, rfl⟩ := mem_map.mp member
    rcases mem_withEdge.mp hb with before | ⟨same, new⟩
    · exact .inl (by simpa using wf.edge_of_mem there before)
    · exact .inr ⟨by simpa using same, new⟩
  · intro edge
    have ha : a ∈ g.keys := edge.elim Edge.source_mem fun new => new.1 ▸ h.1
    obtain ⟨n, member, _, rfl⟩ := exists_node ha
    have there : withEdge dependent dependency n ∈ (g.addEdge dependent dependency).nodes := by
      rw [nodes_addEdge h]
      exact mem_map_of_mem member
    have hb : b ∈ (withEdge dependent dependency n).dependencies := by
      apply mem_withEdge.mpr
      refine edge.imp_left fun old => ?_
      simpa [Edge, wf.dependencies_key member] using old
    simpa using (wf.addEdge dependent dependency).edge_of_mem there hb

theorem wellFormed_ofAdditions (additions : List Addition)
    : (ofAdditions additions).WellFormed := by
  suffices grown : ∀ g : Graph, g.WellFormed → (additions.foldl add g).WellFormed from
    grown {} .empty
  induction additions with
  | nil => exact fun _ wf => wf
  | cons addition rest ih =>
    intro g wf
    refine ih _ ?_
    cases addition with
    | node key priority => exact wf.addNode key priority
    | edge dependent dependency => exact wf.addEdge dependent dependency

/-! ### Subgraphs -/

theorem mem_keys_restrict : key ∈ (g.restrict keep).keys ↔ key ∈ g.keys ∧ keep key = true := by
  simp only [keys, restrict, List.map_map, mem_map, mem_filter, Function.comp_apply]
  constructor
  · rintro ⟨n, ⟨member, kept⟩, rfl⟩
    exact ⟨⟨n, member, rfl⟩, kept⟩
  · rintro ⟨⟨n, member, rfl⟩, kept⟩
    exact ⟨n, ⟨member, kept⟩, rfl⟩

theorem WellFormed.restrict (wf : g.WellFormed) (keep : String → Bool)
    : (g.restrict keep).WellFormed := by
  refine ⟨?_, fun n member d hd => ?_, fun n member => ?_⟩
  · have sub : (g.restrict keep).keys.Sublist g.keys := by
      simp only [keys, Graph.restrict, List.map_map]
      exact List.filter_sublist.map _
    exact wf.unique.sublist sub
  · simp only [Graph.restrict, mem_map, mem_filter] at member
    obtain ⟨old, ⟨there, _⟩, rfl⟩ := member
    obtain ⟨hd, kept⟩ := mem_filter.mp hd
    exact mem_keys_restrict.mpr ⟨wf.closed old there d hd, kept⟩
  · simp only [Graph.restrict, mem_map, mem_filter] at member
    obtain ⟨old, ⟨there, _⟩, rfl⟩ := member
    exact (wf.single old there).filter keep

theorem WellFormed.restrict_node (wf : g.WellFormed) (h : key ∈ g.keys) (kept : keep key = true)
    : (g.restrict keep).dependencies key = (g.dependencies key).filter keep
      ∧ (g.restrict keep).priority key = g.priority key := by
  obtain ⟨n, member, _, rfl⟩ := exists_node h
  have there : { n with dependencies := n.dependencies.filter keep } ∈ (g.restrict keep).nodes :=
    mem_map.mpr ⟨n, mem_filter.mpr ⟨member, kept⟩, rfl⟩
  have deps := (wf.restrict keep).dependencies_key there
  have prio := (wf.restrict keep).priority_key there
  exact ⟨by rw [wf.dependencies_key member]; exact deps,
    by rw [wf.priority_key member]; exact prio⟩

/-- A subgraph has the edges between its nodes. -/
theorem WellFormed.edge_restrict (wf : g.WellFormed)
    : (g.restrict keep).Edge a b ↔ g.Edge a b ∧ keep a = true ∧ keep b = true := by
  constructor
  · intro h
    obtain ⟨ha, kept⟩ := mem_keys_restrict.mp h.source_mem
    rw [Edge, (wf.restrict_node ha kept).1, mem_filter] at h
    exact ⟨h.1, kept, h.2⟩
  · rintro ⟨h, ha, hb⟩
    rw [Edge, (wf.restrict_node h.source_mem ha).1, mem_filter]
    exact ⟨h, hb⟩

end Fxml.Graph
