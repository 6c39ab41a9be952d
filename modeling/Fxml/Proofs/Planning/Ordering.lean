import Fxml.Planning.Document
import Fxml.Proofs.Graph.CycleReports
import Fxml.Proofs.Planning.Invariant

/-! The construction order of elements. The dependency graph has an edge for each dependency;
without a cycle it is listed as a whole, each element after all that it depends on.
-/

open List Fxml.Table

namespace Fxml.Graph

variable {g : Graph} {key other : String} {P : String → Int → Prop}

/-! ### Graphs made of nodes first and of edges then -/

/-- No node of a graph depends on another. -/
def Bare (g : Graph) : Prop := ∀ n ∈ g.nodes, n.dependencies = []

theorem Bare.not_edge (h : g.Bare) {a b : String} : ¬g.Edge a b := by
  intro edge
  obtain ⟨n, member, _, there⟩ := edge.exists_node
  simp [h n member] at there

theorem Bare.addNode (h : g.Bare) (key : String) (priority : Int)
    : (g.addNode key priority).Bare := by
  unfold Graph.addNode
  split
  · exact h
  · intro n member
    rcases mem_append.mp member with old | new
    · exact h n old
    · rw [mem_singleton.mp new]

theorem mem_keys_addNode {priority : Int}
    : other ∈ (g.addNode key priority).keys ↔ other = key ∨ other ∈ g.keys := by
  rw [keys_addNode]
  split
  · rename_i there
    exact ⟨.inr, fun h => h.elim (fun same => same ▸ there) id⟩
  · rw [mem_append, mem_singleton, or_comm]

/-- Several edges from one node. -/
theorem WellFormed.addEdges (wf : g.WellFormed) (key : String) (dependencies : List String)
    : (dependencies.foldl (·.addEdge key ·) g).WellFormed
      ∧ (dependencies.foldl (·.addEdge key ·) g).keys = g.keys
      ∧ ∀ a b,
          (dependencies.foldl (·.addEdge key ·) g).Edge a b
          ↔ g.Edge a b ∨ a = key ∧ b ∈ dependencies ∧ key ∈ g.keys ∧ b ∈ g.keys := by
  induction dependencies generalizing g with
  | nil => exact ⟨wf, rfl, by simp⟩
  | cons first rest ih =>
    obtain ⟨wf', keys, edges⟩ := ih (wf.addEdge key first)
    rw [keys_addEdge] at keys
    refine ⟨wf', keys, fun a b => ?_⟩
    rw [foldl_cons, edges, keys_addEdge]
    by_cases there : key ∈ g.keys ∧ first ∈ g.keys
    · rw [wf.edge_addEdge there]
      constructor
      · rintro ((old | ⟨rfl, rfl⟩) | ⟨rfl, later, known⟩)
        · exact .inl old
        · exact .inr ⟨rfl, mem_cons_self, there⟩
        · exact .inr ⟨rfl, mem_cons_of_mem _ later, known⟩
      · rintro (old | ⟨rfl, member, known⟩)
        · exact .inl (.inl old)
        · rcases mem_cons.mp member with rfl | later
          · exact .inl (.inr ⟨rfl, rfl⟩)
          · exact .inr ⟨rfl, later, known⟩
    · rw [addEdge_of_absent there]
      refine or_congr_right (and_congr_right fun same => ?_)
      constructor
      · exact fun ⟨later, known⟩ => ⟨mem_cons_of_mem _ later, known⟩
      · rintro ⟨member, known⟩
        rcases mem_cons.mp member with rfl | later
        · exact (there known).elim
        · exact ⟨later, known⟩

/-- A relation holds of the key and the priority of every node. -/
def Prioritized (P : String → Int → Prop) (g : Graph) : Prop := ∀ n ∈ g.nodes, P n.key n.priority

theorem Prioritized.addNode (h : g.Prioritized P) {priority : Int} (new : P key priority)
    : (g.addNode key priority).Prioritized P := by
  unfold Graph.addNode
  split
  · exact h
  · intro n member
    rcases mem_append.mp member with old | only
    · exact h n old
    · rw [mem_singleton.mp only]
      exact new

theorem Prioritized.addEdge (h : g.Prioritized P) (a b : String)
    : (g.addEdge a b).Prioritized P := by
  by_cases there : a ∈ g.keys ∧ b ∈ g.keys
  · intro n member
    rw [nodes_addEdge there] at member
    obtain ⟨old, there, rfl⟩ := mem_map.mp member
    rw [key_withEdge, priority_withEdge]
    exact h old there
  · rwa [addEdge_of_absent there]

theorem Prioritized.priority (h : g.Prioritized P) (wf : g.WellFormed) (member : key ∈ g.keys)
    : P key (g.priority key) := by
  obtain ⟨n, there, _, rfl⟩ := exists_node member
  rw [wf.priority_key there]
  exact h n there

/-- A listed node stands after all that it depends on. -/
theorem WellFormed.order_split (wf : g.WellFormed) {before after : List String}
    (h : g.order = before ++ key :: after)
    : key ∉ before ∧ ∀ d, g.Edge key d → d ∈ before := by
  have found : g.order[before.length]? = some key := by simp [h]
  obtain ⟨⟨_, absent, listed⟩, _⟩ := wf.listing_order.position found
  rw [h, take_left'] at absent listed
  · exact ⟨absent, listed⟩
  · rfl
  · rfl

/-- Where dependencies only lead to lower priorities, a listed node has the least priority of all that
come later: whatever is left leads down to something that could be listed now.
-/
theorem WellFormed.priority_le (wf : g.WellFormed)
    (falls : ∀ a b, g.Edge a b → g.priority b ≤ g.priority a) {i : Nat}
    (found : g.order[i]? = some key) (member : other ∈ g.order) (later : other ∉ g.order.take i)
    : g.priority key ≤ g.priority other := by
  have listing := wf.listing_order
  induction listing.acc other member with
  | intro other _ ih =>
    by_cases ready : ∀ d, g.Edge other d → d ∈ g.order.take i
    · have least := (listing.position found).2 other
        ⟨listing.subset_keys member, later, ready⟩
      exact (Prod.Lex.toLex_le_toLex'.mp least).1
    · push Not at ready
      obtain ⟨d, edge, left⟩ := ready
      obtain ⟨before, after, split⟩ := append_of_mem member
      have listed : d ∈ g.order := by
        rw [split]
        exact mem_append_left _ ((wf.order_split split).2 d edge)
      exact (ih d edge listed left).trans (falls other d edge)

/-- Where dependencies only lead to lower priorities, the order is that of priorities. -/
theorem WellFormed.order_pairwise (wf : g.WellFormed)
    (falls : ∀ a b, g.Edge a b → g.priority b ≤ g.priority a)
    : g.order.Pairwise fun a b => g.priority a ≤ g.priority b := by
  have once := wf.listing_order.nodup
  rw [pairwise_iff_getElem]
  intro i j hi hj before
  refine wf.priority_le falls (getElem?_eq_getElem hi) (getElem_mem hj) fun listed => ?_
  obtain ⟨k, hk, same⟩ := getElem_of_mem listed
  rw [length_take] at hk
  rw [getElem_take] at same
  have := once.getElem_inj_iff.mp same
  omega

end Fxml.Graph

namespace Fxml.Planning

open Relation

variable {c : Context} {s : State} {elements : Table Element} {hasController : Bool}

/-! ### The dependency graph -/

/-- The graph of the elements before edges are added. -/
def elementNodes (elements : Table Element) (hasController : Bool) : Graph :=
  elements.foldl (fun g (var, e) => g.addNode var e.order)
    (if hasController then Graph.addNode {} Plan.controllerNode 0 else {})

theorem elementNodes_spec (elements : Table Element) (hasController : Bool)
    : (elementNodes elements hasController).WellFormed
      ∧ (elementNodes elements hasController).Bare
      ∧ ∀ key,
          key ∈ (elementNodes elements hasController).keys
          ↔ key ∈ elements.keys ∨ hasController = true ∧ key = Plan.controllerNode := by
  have grown (elements : Table Element) (g : Graph) (wf : g.WellFormed) (bare : g.Bare)
      : let all := elements.foldl (fun g (var, e) => g.addNode var e.order) g
        all.WellFormed ∧ all.Bare ∧ ∀ key, key ∈ all.keys ↔ key ∈ elements.keys ∨ key ∈ g.keys := by
    induction elements generalizing g with
    | nil => exact ⟨wf, bare, by simp [Table.keys]⟩
    | cons entry rest ih =>
      obtain ⟨var, e⟩ := entry
      obtain ⟨wf', bare', keys⟩ := ih (g.addNode var e.order) (wf.addNode _ _) (bare.addNode _ _)
      refine ⟨wf', bare', fun key => ?_⟩
      rw [foldl_cons, keys, Graph.mem_keys_addNode]
      simp only [Table.keys, map_cons, mem_cons]
      tauto
  have start : Graph.Bare {} := fun _ member => nomatch member
  unfold elementNodes
  cases hasController with
  | false =>
    obtain ⟨wf, bare, keys⟩ := grown elements {} .empty start
    exact ⟨wf, bare, fun key => by simpa [Graph.keys] using keys key⟩
  | true =>
    obtain ⟨wf, bare, keys⟩ := grown elements (Graph.addNode {} Plan.controllerNode 0)
      (Graph.WellFormed.empty.addNode _ _) (start.addNode _ _)
    refine ⟨wf, bare, fun key => ?_⟩
    rw [if_pos rfl, keys, Graph.mem_keys_addNode]
    simp [Graph.keys]

/-- Adding the dependencies of elements that are nodes adds the edges among the nodes. -/
theorem addDependencies_spec (more : Table Element) (g : Graph) (wf : g.WellFormed)
    (known : more.keys ⊆ g.keys)
    : let all := more.foldl (fun g (var, e) => e.dependencies.foldl (·.addEdge var ·) g) g
      all.WellFormed
      ∧ all.keys = g.keys
      ∧ ∀ a b,
          all.Edge a b
          ↔ g.Edge a b ∨ ∃ e, (a, e) ∈ more ∧ b ∈ e.dependencies ∧ b ∈ g.keys := by
  induction more generalizing g with
  | nil => exact ⟨wf, rfl, by simp⟩
  | cons entry rest ih =>
    obtain ⟨var, e⟩ := entry
    obtain ⟨here, later⟩ := cons_subset.mp known
    obtain ⟨wf', keys', edges'⟩ := wf.addEdges var e.dependencies
    obtain ⟨wf'', keys'', edges''⟩ := ih _ wf' (by rw [keys']; exact later)
    refine ⟨wf'', keys''.trans keys', fun a b => ?_⟩
    rw [foldl_cons, edges'', edges', keys', or_assoc]
    refine or_congr_right ?_
    constructor
    · rintro (⟨rfl, member, _, known⟩ | ⟨other, member, rest⟩)
      · exact ⟨e, mem_cons_self, member, known⟩
      · exact ⟨other, mem_cons_of_mem _ member, rest⟩
    · rintro ⟨other, member, needed, known⟩
      rcases mem_cons.mp member with same | later
      · cases same
        exact .inl ⟨rfl, needed, here, known⟩
      · exact .inr ⟨other, later, needed, known⟩

/-- The graph has the elements as nodes, and the controller if there is one, and an edge for each
dependency among them.
-/
theorem dependencyGraph_spec (elements : Table Element) (hasController : Bool)
    : (dependencyGraph elements hasController).WellFormed
      ∧ (∀ key,
          key ∈ (dependencyGraph elements hasController).keys
          ↔ key ∈ elements.keys ∨ hasController = true ∧ key = Plan.controllerNode)
      ∧ ∀ a b,
          (dependencyGraph elements hasController).Edge a b
          ↔ ∃ e, (a, e) ∈ elements
              ∧ b ∈ e.dependencies
              ∧ b ∈ (dependencyGraph elements hasController).keys := by
  obtain ⟨wf, bare, keys⟩ := elementNodes_spec elements hasController
  have known : elements.keys ⊆ (elementNodes elements hasController).keys :=
    fun key member => (keys key).mpr (.inl member)
  obtain ⟨wf', keys', edges⟩ := addDependencies_spec elements _ wf known
  have same : (dependencyGraph elements hasController).keys
      = (elementNodes elements hasController).keys := keys'
  refine ⟨wf', fun key => ?_, fun a b => ?_⟩
  · rw [same, keys]
  · rw [same]
    exact (edges a b).trans (or_iff_right bare.not_edge)

/-- The priority of an element is its rank, and that of the controller comes before all. -/
theorem prioritized_dependencyGraph (elements : Table Element) (hasController : Bool)
    : (dependencyGraph elements hasController).Prioritized fun key priority =>
        (∃ e, (key, e) ∈ elements ∧ priority = e.order)
        ∨ key = Plan.controllerNode ∧ priority = 0 := by
  unfold dependencyGraph
  have start : Graph.Prioritized
      (fun key priority => (∃ e, (key, e) ∈ elements ∧ priority = e.order)
        ∨ key = Plan.controllerNode ∧ priority = 0)
      (if hasController then Graph.addNode {} Plan.controllerNode 0 else {}) := by
    split
    · exact Graph.Prioritized.addNode (fun _ member => nomatch member) (.inr ⟨rfl, rfl⟩)
    · exact fun _ member => nomatch member
  refine foldlRecOn _ _ (foldlRecOn _ _ start ?_) ?_
  · exact fun g before entry member => before.addNode (.inl ⟨entry.2, member, rfl⟩)
  · intro g before entry _
    exact foldlRecOn _ _ before fun g before d _ => before.addEdge entry.1 d

/-- A cycle that is reported names an element: the controller depends on nothing. -/
theorem exists_head_of_cycle {cycle : List String}
    (h : cycle ∈ (dependencyGraph elements hasController).cycles)
    : ∃ first, (cycle.filterMap elements.get?).head? = some first := by
  obtain ⟨wf, _, edges⟩ := dependencyGraph_spec elements hasController
  obtain ⟨start, reports⟩ := wf.reports_of_mem h
  have member : start ∈ cycle := mem_of_mem_head? reports.head
  obtain ⟨next, edge, _⟩ := TransGen.head'_iff.mp (reports.closed.onCycle wf member)
  obtain ⟨e, there, _⟩ := (edges start next).mp edge
  obtain ⟨found, got⟩ := exists_get? (mem_keys_of_mem there)
  have listed : found ∈ cycle.filterMap elements.get? :=
    mem_filterMap.mpr ⟨start, member, got⟩
  cases all : cycle.filterMap elements.get? with
  | nil => simp [all] at listed
  | cons first rest => exact ⟨first, rfl⟩

/-! ### The order -/

/-- An order lists all elements once, each after the elements that it depends on. It is that of ranks
where dependencies are of no higher rank.
-/
structure Ordered (elements : Table Element) (order : List String) : Prop where
  perm : order.Perm elements.keys
  earlier
    : ∀ before var after,
        order = before ++ var :: after
        → ∀ e, (var, e) ∈ elements → ∀ d ∈ e.dependencies, d ∈ elements.keys → d ∈ before
  byRank
    : (∀ var e d f,
        (var, e) ∈ elements → d ∈ e.dependencies → (d, f) ∈ elements → f.order ≤ e.order)
      → order.Pairwise fun a b =>
          ∀ e f, (a, e) ∈ elements → (b, f) ∈ elements → e.order ≤ f.order

theorem ordered_of_acyclic (unique : elements.keys.Nodup)
    (apart : Plan.controllerNode ∉ elements.keys)
    (acyclic : (dependencyGraph elements hasController).cycles = [])
    : Ordered elements
        ((dependencyGraph elements hasController).order.filter (· != Plan.controllerNode)) := by
  obtain ⟨wf, keys, edges⟩ := dependencyGraph_spec elements hasController
  have all := wf.keys_subset_order_iff.mpr (wf.cycles_eq_nil_iff.mp acyclic)
  have once := wf.listing_order.nodup
  refine ⟨?_, fun before var after split e there d needed known => ?_, fun falls => ?_⟩
  · refine (perm_ext_iff_of_nodup (once.filter _) unique).mpr fun key => ?_
    rw [mem_filter, bne_iff_ne]
    constructor
    · rintro ⟨listed, other⟩
      exact ((keys key).mp (wf.mem_order.mp listed).1).resolve_right fun h => other h.2
    · exact fun member => ⟨all key ((keys key).mpr (.inl member)),
        fun same => apart (same ▸ member)⟩
  · have listed : var ∈ (dependencyGraph elements hasController).order :=
      mem_of_mem_filter (split ▸ mem_append_right _ mem_cons_self)
    -- Only the controller is filtered out, so what precedes `var` in the whole order still does.
    obtain ⟨first, last, whole⟩ := append_of_mem listed
    obtain ⟨absent, listedBefore⟩ := wf.order_split whole
    have kept : var ≠ Plan.controllerNode := fun same => apart (same ▸ mem_keys_of_mem there)
    have last_absent : var ∉ last := by
      rw [whole] at once
      exact (nodup_cons.mp (nodup_append.mp once).2.1).1
    rw [whole, filter_append, filter_cons_of_pos (by simpa using kept)] at split
    obtain ⟨rfl, _⟩ := (append_cons_inj_of_notMem
      (mt mem_of_mem_filter absent) (mt mem_of_mem_filter last_absent)).mp split
    refine mem_filter.mpr ⟨listedBefore d ((edges var d).mpr ⟨e, there, needed, ?_⟩), ?_⟩
    · exact (keys d).mpr (.inl known)
    · exact bne_iff_ne.mpr fun same => apart (same ▸ known)
  · have rank {var : String} {e : Element} (there : (var, e) ∈ elements)
        : (dependencyGraph elements hasController).priority var = e.order := by
      have member := mem_keys_of_mem there
      rcases (prioritized_dependencyGraph elements hasController).priority wf
        ((keys var).mpr (.inl member)) with ⟨other, same, priority⟩ | ⟨controller, _⟩
      · rw [priority, eq_of_mem unique there same]
      · exact (apart (controller ▸ member)).elim
    -- Edges to the controller fall too: its priority is zero, and none is lower.
    have falling (a b : String) (edge : (dependencyGraph elements hasController).Edge a b)
        : (dependencyGraph elements hasController).priority b
          ≤ (dependencyGraph elements hasController).priority a := by
      obtain ⟨e, there, needed, known⟩ := (edges a b).mp edge
      rw [rank there]
      rcases (prioritized_dependencyGraph elements hasController).priority wf known with
        ⟨f, other, priority⟩ | ⟨_, priority⟩
      · rw [priority]
        exact Int.ofNat_le.mpr (falls a e b f there needed other)
      · rw [priority]
        exact Int.natCast_nonneg _
    refine ((wf.order_pairwise falling).filter _).imp fun le e f here there => ?_
    rw [rank here, rank there] at le
    exact Int.ofNat_le.mp le

/-- The names of the method itself are no variables of elements. -/
theorem Inv.not_mem_keys {underway : List String} (inv : Inv c underway s) {name : String}
    (build : name ∈ Naming.buildNames)
    : name ∉ s.elements.keys := by
  intro member
  obtain ⟨e, there⟩ := mem_keys.mp member
  obtain ⟨same, node, _, _, named, _⟩ := inv.standing _ e there
  rw [same] at named
  exact inv.named.free _ _ named build

theorem controllerNode_mem_buildNames : Plan.controllerNode ∈ Naming.buildNames := by
  simp [Plan.controllerNode, Naming.buildNames]

/-- Without an error there is no cycle, so all elements are ordered. -/
theorem orderElements_plans
    : Plans c [] orderElements s fun order t => t = s ∧ Ordered t.elements order := by
  unfold orderElements
  rw [plans_get_bind, plans_read_bind]
  refine (Plans.noRounds fun cycle member t => ?_).bind fun _ t after => ?_
  · obtain ⟨first, found⟩ := exists_head_of_cycle member
    dsimp only
    rw [found]
    exact ends_refuse rfl
  · refine plans_pure.mpr fun clean inv => ?_
    obtain ⟨none_there, rfl⟩ := (after clean).holds
    exact ⟨rfl, ordered_of_acyclic inv.unique (inv.not_mem_keys controllerNode_mem_buildNames)
      none_there⟩

end Fxml.Planning
