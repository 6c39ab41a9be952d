import Fxml.Proofs.Graph.CycleReports

/-! What a graph leads to does not depend on how it was put together: graphs with the same nodes and
edges have the same construction order and the same reports of cycles, as long as no two priorities
are the same.
-/

open List

namespace Fxml.Graph

open Relation

/-! ### Graphs that are the same but for the order of their parts -/

/-- Two graphs with the same nodes and edges. -/
structure Same (g g' : Graph) : Prop where
  left : g.WellFormed
  right : g'.WellFormed
  keys : ∀ key, key ∈ g.keys ↔ key ∈ g'.keys
  priority : ∀ key, g.priority key = g'.priority key
  dependencies : ∀ key, (g.dependencies key).Perm (g'.dependencies key)

/-- No two nodes have the same priority. -/
def Distinct (g : Graph) : Prop :=
  ∀ a ∈ g.keys, ∀ b ∈ g.keys, g.priority a = g.priority b → a = b

variable {g g' : Graph} {key : String} {listed : List String}

theorem node?_of_absent (absent : key ∉ g.keys) : g.node? key = none := by
  cases found : g.node? key with
  | none => rfl
  | some n => exact (absent ((node?_some found).2 ▸ mem_keys (node?_some found).1)).elim

theorem Same.symm (h : Same g g') : Same g' g where
  left := h.right
  right := h.left
  keys key := (h.keys key).symm
  priority key := (h.priority key).symm
  dependencies key := (h.dependencies key).symm

/-- Graphs are the same if they are so on their nodes. -/
theorem Same.of_keys (left : g.WellFormed) (right : g'.WellFormed)
    (keys : ∀ key, key ∈ g.keys ↔ key ∈ g'.keys)
    (nodes : ∀ key ∈ g.keys, g.priority key = g'.priority key
      ∧ (g.dependencies key).Perm (g'.dependencies key))
    : Same g g' := by
  have outside (key : String) (absent : key ∉ g.keys) : g.node? key = none ∧ g'.node? key = none :=
    ⟨node?_of_absent absent, node?_of_absent (mt (keys key).mpr absent)⟩
  refine ⟨left, right, keys, fun key => ?_, fun key => ?_⟩
  · by_cases there : key ∈ g.keys
    · exact (nodes key there).1
    · rw [Graph.priority, Graph.priority, (outside key there).1, (outside key there).2]
  · by_cases there : key ∈ g.keys
    · exact (nodes key there).2
    · rw [Graph.dependencies, Graph.dependencies, (outside key there).1, (outside key there).2]

theorem WellFormed.mem_cycles (wf : g.WellFormed) {cycle : List String}
    : cycle ∈ g.cycles
      ↔ ∃ key ∈ g.leftover.keys, g.leftover.OnCycle key
          ∧ g.leftover.report? (g.leftover.classOf key) = some cycle := by
  rw [(cycles_perm g).mem_iff, mem_filterMap]
  constructor
  · rintro ⟨component, member, found⟩
    obtain ⟨there, cyclic⟩ := mem_filter.mp member
    obtain ⟨key, node, rfl⟩ := wf.leftover.mem_components there
    exact ⟨key, node, (wf.leftover.isCyclic_classOf node).mp cyclic, found⟩
  · rintro ⟨key, node, cyclic, found⟩
    refine ⟨_, mem_filter.mpr ⟨wf.leftover.classOf_mem_components node, ?_⟩, found⟩
    exact (wf.leftover.isCyclic_classOf node).mpr cyclic

theorem WellFormed.nodup_cycles (wf : g.WellFormed) : g.cycles.Nodup := by
  refine (Pairwise.and_mem.mp wf.cycles_separate).imp ?_
  rintro first second ⟨member, _, separate⟩ rfl
  obtain ⟨start, reports⟩ := wf.reports_of_mem member
  have there := mem_of_mem_head? reports.head
  exact separate start there start there (.refl g start)

namespace Same

variable (h : Same g g')

include h

theorem edge_eq : g.Edge = g'.Edge := by
  funext a b
  exact propext (h.dependencies a).mem_iff

theorem restrict (keep : String → Bool) : Same (g.restrict keep) (g'.restrict keep) := by
  refine .of_keys (h.left.restrict keep) (h.right.restrict keep) (fun key => ?_) fun key there => ?_
  · rw [mem_keys_restrict, mem_keys_restrict, h.keys]
  · obtain ⟨member, kept⟩ := mem_keys_restrict.mp there
    obtain ⟨deps, priority⟩ := h.left.restrict_node member kept
    obtain ⟨deps', priority'⟩ := h.right.restrict_node ((h.keys key).mp member) kept
    rw [deps, deps', priority, priority']
    exact ⟨h.priority key, (h.dependencies key).filter keep⟩

/-! ### The construction order -/

theorem available_iff
    : g.Available listed key ↔ g'.Available listed key := by
  rw [Available, Available, h.edge_eq, h.keys]

theorem rankOf_eq (key : String) : g.rankOf key = g'.rankOf key := by
  rw [rankOf, rankOf, h.priority]

theorem listing (chosen : g.Listing listed) : g'.Listing listed := by
  induction chosen with
  | nil => exact .nil
  | snoc _ next least ih =>
    refine ih.snoc (h.available_iff.mp next) fun other available => ?_
    rw [← h.rankOf_eq, ← h.rankOf_eq]
    exact least other (h.available_iff.mpr available)

/-- The construction order begins with every list of greedy choices. -/
theorem prefix_order (chosen : g'.Listing listed) : listed <+: g.order := by
  rcases (h.symm.listing chosen).comparable h.left.listing_order with shorter | ⟨rest, rfl⟩
  · exact shorter
  · cases rest with
    | nil => simp
    | cons next rest =>
      have found : (g.order ++ next :: rest)[g.order.length]? = some next := by simp
      have available := (h.symm.listing chosen).position found
      rw [take_left' rfl] at available
      exact (h.left.not_available_order next available.1).elim

theorem order_eq : g.order = g'.order :=
  (h.symm.prefix_order h.left.listing_order).eq_of_length_le
    (h.prefix_order h.right.listing_order).length_le

theorem leftover : Same g.leftover g'.leftover := by
  rw [Graph.leftover, Graph.leftover, h.order_eq]
  exact h.restrict _

/-! ### Components and their cycles -/

theorem stronglyConnected_iff {a b : String}
    : g.StronglyConnected a b ↔ g'.StronglyConnected a b := by
  rw [StronglyConnected, StronglyConnected, h.edge_eq]

theorem onCycle_iff : g.OnCycle key ↔ g'.OnCycle key := by
  rw [OnCycle, OnCycle, h.edge_eq]

theorem classOf_perm (key : String) : (g.classOf key).Perm (g'.classOf key) := by
  refine (perm_ext_iff_of_nodup (h.left.nodup_classOf key) (h.right.nodup_classOf key)).mpr ?_
  intro other
  rw [h.left.mem_classOf, h.right.mem_classOf, h.keys, h.stronglyConnected_iff]

/-- Keys in the order of their priorities. -/
theorem byPriority_eq (distinct : g.Distinct) {keys keys' : List String} (perm : keys.Perm keys')
    (sub : keys ⊆ g.keys)
    : g.byPriority keys = g'.byPriority keys' := by
  have rule : g'.byPriority keys' = g.byPriority keys' := by
    simp only [byPriority, h.priority]
  have same : (g.byPriority keys).Perm (g.byPriority keys') :=
    ((mergeSort_perm _ _).trans perm).trans (mergeSort_perm _ _).symm
  rw [rule]
  refine same.eq_of_pairwise (fun a b ha hb low high => ?_) (pairwise_mergeSort_by g.priority keys)
    (pairwise_mergeSort_by g.priority keys')
  have there := sub (mem_mergeSort.mp ha)
  have there' := sub (perm.mem_iff.mpr (mem_mergeSort.mp hb))
  exact distinct a there b there' (le_antisymm low high)

section Components

variable {component component' : List String} {start : String} (distinct : g.Distinct)
  (perm : component.Perm component')

include distinct perm

theorem onward_eq (start : String) (path : List String)
    : g.onward start component path = g'.onward start component' path := by
  have contains : component.contains = component'.contains := by
    funext key
    simp [perm.mem_iff]
  rw [onward, onward, ← contains]
  refine h.byPriority_eq distinct ((h.dependencies _).filter _) fun key member => ?_
  exact h.left.target_mem (mem_of_mem_filter member)

theorem extendAll_eq (paths : List (List String)) (found : Found)
    : g.extendAll start component paths found = g'.extendAll start component' paths found := by
  induction paths generalizing found with
  | nil => rfl
  | cons path rest ih => rw [extendAll_cons, extendAll_cons, ih, h.onward_eq distinct perm]

theorem searchCycle_eq (rounds : Nat) (seen : List String) (paths : List (List String))
    : g.searchCycle start component rounds seen paths
      = g'.searchCycle start component' rounds seen paths := by
  induction rounds generalizing seen paths with
  | zero => rfl
  | succ rounds ih =>
    rw [searchCycle, searchCycle, h.extendAll_eq distinct perm]
    split
    · rfl
    · exact ih _ _

theorem lowest?_eq (sub : component ⊆ g.keys)
    : g.lowest? component = g'.lowest? component' := by
  cases low : g.lowest? component with
  | none =>
    cases component with
    | nil => rw [nil_perm.mp perm, lowest?]
    | cons => cases low
  | some start =>
    obtain ⟨member, least⟩ := lowest?_some low
    cases low' : g'.lowest? component' with
    | none =>
      cases component' with
      | nil => cases perm.mem_iff.mp member
      | cons => cases low'
    | some start' =>
      obtain ⟨member', least'⟩ := lowest?_some low'
      have there' := perm.mem_iff.mpr member'
      have high := least' start (perm.mem_iff.mp member)
      rw [← h.priority, ← h.priority] at high
      rw [distinct start (sub member) start' (sub there') (le_antisymm (least _ there') high)]

end Components

theorem report?_eq (distinct : g.Distinct) (key : String)
    : g.report? (g.classOf key) = g'.report? (g'.classOf key) := by
  have perm := h.classOf_perm key
  have sub : g.classOf key ⊆ g.keys := fun other member => (h.left.mem_classOf.mp member).1
  rw [report?, report?, h.lowest?_eq distinct perm sub]
  congr 1
  funext start
  rw [cycleFrom, cycleFrom, perm.length_eq, h.searchCycle_eq distinct perm]

theorem cycles_eq (distinct : g.Distinct) : g.cycles = g'.cycles := by
  have later : g.leftover.Distinct := by
    intro a ha b hb
    rw [h.left.priority_leftover ha, h.left.priority_leftover hb]
    exact distinct a (mem_keys_restrict.mp ha).1 b (mem_keys_restrict.mp hb).1
  have perm : g.cycles.Perm g'.cycles := by
    refine (perm_ext_iff_of_nodup h.left.nodup_cycles h.right.nodup_cycles).mpr fun cycle => ?_
    simp only [h.left.mem_cycles, h.right.mem_cycles, h.leftover.keys, h.leftover.onCycle_iff,
      h.leftover.report?_eq later]
  have sorted' := cycles_sorted g'
  simp only [← h.priority] at sorted'
  refine perm.eq_of_pairwise (fun first second hf hs low high => ?_) (cycles_sorted g) sorted'
  -- Two reports that start with nodes of one priority start with one node.
  have hs := perm.mem_iff.mpr hs
  obtain ⟨a, reports⟩ := h.left.reports_of_mem hf
  obtain ⟨b, reports'⟩ := h.left.reports_of_mem hs
  have ma := mem_of_mem_head? reports.head
  have mb := mem_of_mem_head? reports'.head
  have node {cycle : List String} {key : String} (reports : g.Reports cycle key) : key ∈ g.keys := by
    have closed := reports.closed.onCycle h.left (mem_of_mem_head? reports.head)
    obtain ⟨_, edge, _⟩ := TransGen.head'_iff.mp closed
    exact edge.source_mem
  have same : a = b :=
    distinct a (node reports) b (node reports') (le_antisymm (low a reports.head b reports'.head)
      (high b reports'.head a reports.head))
  by_contra different
  have : Std.Symm fun first second : List String =>
      ∀ a ∈ first, ∀ b ∈ second, ¬g.StronglyConnected a b :=
    ⟨fun _ _ apart x hx y hy joined => apart y hy x hx joined.symm⟩
  exact h.left.cycles_separate.forall hf hs different a ma b mb (same ▸ .refl g a)

end Same

/-! ### Graphs made by additions -/

/-- Two graphs that have the same nodes with the same priorities and edges, no two priorities being
equal, have the same construction order and the same reports of cycles, however they were put together.
-/
theorem order_cycles_of_same_parts (additions additions' : List Addition)
    : let g := ofAdditions additions
      let g' := ofAdditions additions'
      g.keys.Perm g'.keys
      → (∀ a ∈ g.keys,
          g.priority a = g'.priority a
          ∧ ∀ b ∈ g.keys, b ∈ g.dependencies a ↔ b ∈ g'.dependencies a)
      → (∀ a ∈ g.keys, ∀ b ∈ g.keys, g.priority a = g.priority b → a = b)
      → g.order = g'.order ∧ g.cycles = g'.cycles := by
  intro g g' keys nodes distinct
  have left : g.WellFormed := wellFormed_ofAdditions additions
  have right : g'.WellFormed := wellFormed_ofAdditions additions'
  have same : Same g g' := by
    refine .of_keys left right (fun key => keys.mem_iff) fun key there => ⟨(nodes key there).1, ?_⟩
    refine (perm_ext_iff_of_nodup (left.nodup_dependencies key) (right.nodup_dependencies key)).mpr
      fun other => ⟨fun edge => ?_, fun edge => ?_⟩
    · exact ((nodes _ there).2 other (left.target_mem edge)).mp edge
    · exact ((nodes _ there).2 other (keys.mem_iff.mpr (right.target_mem edge))).mpr edge
  exact ⟨same.order_eq, same.cycles_eq distinct⟩

/-- A cycle and a node that depends on it, with the parts added in two orders. -/
theorem order_cycles_of_swapped_edges
    : let additions : List Addition := [.node "a" 1, .node "b" 2, .node "c" 0, .edge "a" "b",
        .edge "b" "a", .edge "b" "c", .edge "a" "c"]
      let additions' : List Addition := [.node "c" 0, .node "b" 2, .node "a" 1, .edge "a" "c",
        .edge "b" "c", .edge "b" "a", .edge "a" "b"]
      (ofAdditions additions).order = (ofAdditions additions').order
      ∧ (ofAdditions additions).cycles = (ofAdditions additions').cycles :=
  order_cycles_of_same_parts _ _ (by decide) (by decide) (by decide)

end Fxml.Graph
