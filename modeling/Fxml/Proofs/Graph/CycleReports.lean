import Fxml.Proofs.Graph.ComponentPartition
import Fxml.Proofs.Graph.ConstructionOrder
import Fxml.Proofs.Graph.ShortestCycle

/-! The construction order and the reports of cycles are exact. The nodes outside the order are
those that lead to a cycle, and each component with a cycle is reported once, by a shortest cycle
through its lowest node.
-/

open List

namespace Fxml.Graph

open Relation

variable {g : Graph} {key a b start : String} {inside nodes component cycle : List String} {n : Nat}

/-- A closed way along dependencies: each node depends on the next, and the last on the first. -/
def IsCycle (g : Graph) (nodes : List String) : Prop :=
  ∃ first, nodes.head? = some first ∧ (nodes ++ [first]).IsChain g.Edge

/-! ### The nodes outside the construction order -/

/-- The subgraph of the nodes that the construction order does not list. -/
def leftover (g : Graph) : Graph := g.restrict (!g.order.contains ·)

theorem WellFormed.leftover (wf : g.WellFormed) : g.leftover.WellFormed :=
  wf.restrict _

theorem WellFormed.mem_leftover (wf : g.WellFormed)
    : key ∈ g.leftover.keys ↔ key ∈ g.keys ∧ g.ReachesCycle key := by
  rw [Graph.leftover, mem_keys_restrict]
  refine and_congr_right fun member => ?_
  simp [wf.reachesCycle_iff member]

theorem WellFormed.priority_leftover (wf : g.WellFormed) (h : key ∈ g.leftover.keys)
    : g.leftover.priority key = g.priority key := by
  obtain ⟨member, kept⟩ := mem_keys_restrict.mp h
  exact (wf.restrict_node member kept).2

theorem ReachesCycle.of_way (h : g.ReachesCycle b) (way : ReflTransGen g.Edge a b)
    : g.ReachesCycle a := by
  obtain ⟨other, rest, cycle⟩ := h
  exact ⟨other, way.trans rest, cycle⟩

theorem OnCycle.reachesCycle (h : g.OnCycle key) : g.ReachesCycle key :=
  ⟨key, .refl, h⟩

/-- An edge to a node that leads to a cycle stays among the nodes that do. -/
theorem WellFormed.edge_leftover (wf : g.WellFormed)
    : g.leftover.Edge a b ↔ g.Edge a b ∧ g.ReachesCycle b := by
  rw [Graph.leftover, wf.edge_restrict]
  refine and_congr_right fun edge => ?_
  have source := wf.reachesCycle_iff edge.source_mem
  have target := wf.reachesCycle_iff (wf.target_mem edge)
  simp only [contains_eq_mem, Bool.not_eq_true', decide_eq_false_iff_not, ← source, ← target]
  exact ⟨fun h => h.2, fun h => ⟨h.of_way (.single edge), h⟩⟩

theorem WellFormed.way_leftover (wf : g.WellFormed) (h : g.ReachesCycle b)
    (way : ReflTransGen g.Edge a b)
    : ReflTransGen g.leftover.Edge a b := by
  induction way using ReflTransGen.head_induction_on with
  | refl => exact .refl
  | head edge rest ih => exact ih.head (wf.edge_leftover.mpr ⟨edge, h.of_way rest⟩)

/-- What is strongly connected with a node that leads to a cycle is so outside the order. -/
theorem WellFormed.stronglyConnected_leftover (wf : g.WellFormed) (h : g.ReachesCycle a)
    : g.leftover.StronglyConnected a b ↔ g.StronglyConnected a b := by
  have forget {x y : String} (way : ReflTransGen g.leftover.Edge x y) : ReflTransGen g.Edge x y :=
    way.lift id fun _ _ edge => (wf.edge_leftover.mp edge).1
  constructor
  · exact fun connected => ⟨forget connected.1, forget connected.2⟩
  · exact fun connected =>
      ⟨wf.way_leftover (h.of_way connected.2) connected.1, wf.way_leftover h connected.2⟩

theorem WellFormed.onCycle_leftover (wf : g.WellFormed)
    : g.leftover.OnCycle key ↔ g.OnCycle key := by
  constructor
  · exact TransGen.lift id (fun _ _ edge => (wf.edge_leftover.mp edge).1) key key
  · intro cycle
    obtain ⟨next, edge, back⟩ := TransGen.head'_iff.mp cycle
    have leads := cycle.reachesCycle
    exact TransGen.head' (wf.edge_leftover.mpr ⟨edge, leads.of_way back⟩)
      (wf.way_leftover leads back)

/-! ### Components with a cycle, and where their cycles start -/

theorem StronglyConnected.onCycle (h : g.StronglyConnected a b) (different : a ≠ b)
    : g.OnCycle a := by
  rcases ReflTransGen.cases_head h.1 with same | ⟨next, edge, rest⟩
  · exact absurd same different
  · exact TransGen.head' edge (rest.trans h.2)

/-- The test for a cycle in a component: two nodes make one, and one node needs an edge to itself.
-/
theorem WellFormed.isCyclic_classOf (wf : g.WellFormed) (member : key ∈ g.keys)
    : g.isCyclic (g.classOf key) = true ↔ g.OnCycle key := by
  have own : key ∈ g.classOf key := wf.mem_classOf.mpr ⟨member, .refl g key⟩
  have unique := wf.nodup_classOf key
  have inside {other : String} (h : other ∈ g.classOf key) : g.StronglyConnected key other :=
    (wf.mem_classOf.mp h).2
  have back {other : String} (edge : g.Edge key other) (way : ReflTransGen g.Edge other key)
      : other ∈ g.classOf key :=
    wf.mem_classOf.mpr ⟨wf.target_mem edge, .single edge, way⟩
  rcases shape : g.classOf key with _ | ⟨first, _ | ⟨second, rest⟩⟩
  · simp [shape] at own
  · obtain rfl : key = first := by simpa [shape] using own
    simp only [isCyclic, contains_eq_mem, decide_eq_true_eq]
    constructor
    · exact fun edge => TransGen.single edge
    · intro cycle
      obtain ⟨next, edge, way⟩ := TransGen.head'_iff.mp cycle
      obtain rfl : next = key := by simpa [shape] using back edge way
      exact edge
  · simp only [isCyclic, true_iff]
    -- One of two different nodes is not the node itself.
    rw [shape] at inside unique
    have two : first ≠ second := by
      intro same
      simp [same] at unique
    by_cases same : key = first
    · exact (inside (by simp : second ∈ _)).onCycle (same ▸ two)
    · exact (inside (by simp : first ∈ _)).onCycle same

theorem lowest?_some {keys : List String} (h : g.lowest? keys = some start)
    : start ∈ keys ∧ ∀ key ∈ keys, g.priority start ≤ g.priority key := by
  cases keys with
  | nil => simp [lowest?] at h
  | cons first rest =>
    simp only [lowest?, Option.some.injEq] at h
    subst h
    induction rest generalizing first with
    | nil => simp
    | cons key rest ih =>
      rw [foldl_cons]
      split
      · rename_i lower
        obtain ⟨member, least⟩ := ih key
        refine ⟨mem_cons_of_mem _ member, fun other there => ?_⟩
        rcases mem_cons.mp there with rfl | there
        · exact (least key (by simp)).trans lower.le
        · exact least other there
      · rename_i higher
        obtain ⟨member, least⟩ := ih first
        refine ⟨?_, fun other there => ?_⟩
        · rcases mem_cons.mp member with same | later
          · rw [same]
            simp
          · simp [later]
        · rcases mem_cons.mp there with rfl | there
          · exact least other (by simp)
          rcases mem_cons.mp there with rfl | there
          · exact (least first (by simp)).trans (not_lt.mp higher)
          · exact least other (by simp [there])

/-! ### Cycles as ways back -/

theorem Way.reach (way : g.Way inside n a b) : ReflTransGen g.Edge a b := by
  induction way with
  | here => exact .refl
  | step _ edge _ ih => exact ih.tail edge

section

variable (wf : g.WellFormed)
include wf

theorem WellFormed.way_of_isChain {first last : String} (chain : (nodes ++ [last]).IsChain g.Edge)
    (head : (nodes ++ [last]).head? = some first)
    : g.Way g.keys nodes.length first last := by
  induction nodes generalizing first with
  | nil =>
    obtain rfl : last = first := by simpa using head
    exact .here last
  | cons node rest ih =>
    obtain rfl : node = first := by simpa using head
    obtain ⟨next, found⟩ : ∃ next, (rest ++ [last]).head? = some next :=
      ⟨_, head?_eq_some_head (by simp)⟩
    rw [cons_append, isChain_cons] at chain
    have edge := chain.1 next found
    have one : g.Way g.keys 1 node next := (Way.here node).step edge (wf.target_mem edge)
    rw [length_cons, Nat.add_comm]
    exact one.append (ih chain.2 found)

/-- A cycle leads from each of its nodes back to it. Witness: its part after the node, and then its
part before the node.
-/
theorem IsCycle.way (cycle : g.IsCycle nodes) (member : key ∈ nodes)
    : g.Way g.keys nodes.length key key := by
  obtain ⟨first, head, chain⟩ := cycle
  obtain ⟨before, after, rfl⟩ := append_of_mem member
  have toFirst : g.Way g.keys (key :: after).length key first := by
    rw [append_assoc] at chain
    exact wf.way_of_isChain chain.right_of_append rfl
  have fromFirst : g.Way g.keys before.length first key := by
    have split : before ++ key :: after ++ [first] = (before ++ [key]) ++ (after ++ [first]) := by
      simp
    rw [split] at chain
    refine wf.way_of_isChain chain.left_of_append ?_
    cases before <;> simpa using head
  rw [length_append, Nat.add_comm]
  exact toFirst.append fromFirst

theorem IsCycle.onCycle (cycle : g.IsCycle nodes) (member : key ∈ nodes)
    : g.OnCycle key := by
  obtain ⟨n, length⟩ := Nat.exists_eq_succ_of_ne_zero (length_pos_of_mem member).ne'
  have way := cycle.way wf member
  rw [length] at way
  cases way with
  | step way edge _ => exact TransGen.tail' way.reach edge

/-- A way to a node from which the start can be reached again stays in the component of the start.
-/
theorem WellFormed.way_classOf (way : g.Way inside n start key)
    (back : ReflTransGen g.Edge key start)
    : g.Way (g.classOf start) n start key := by
  induction way with
  | here => exact .here _
  | step way edge _ ih =>
    refine (ih (back.head edge)).step edge (wf.mem_classOf.mpr ?_)
    exact ⟨wf.target_mem edge, way.reach.tail edge, back⟩

theorem WellFormed.exists_way_of_onCycle (cycle : g.OnCycle key)
    : ∃ n, 0 < n ∧ g.Way (g.classOf key) n key key := by
  have ways {b : String} (way : TransGen g.Edge key b) : ∃ n, 0 < n ∧ g.Way g.keys n key b := by
    induction way with
    | single edge => exact ⟨1, by omega, (Way.here key).step edge (wf.target_mem edge)⟩
    | tail _ edge ih =>
      obtain ⟨n, _, way⟩ := ih
      exact ⟨n + 1, by omega, way.step edge (wf.target_mem edge)⟩
  obtain ⟨n, positive, way⟩ := ways cycle
  exact ⟨n, positive, wf.way_classOf way .refl⟩

theorem Way.leftover (way : g.Way inside n a b) (h : g.ReachesCycle b)
    : g.leftover.Way inside n a b := by
  induction way with
  | here => exact .here _
  | step _ edge member ih =>
    exact (ih (h.of_way (.single edge))).step (wf.edge_leftover.mpr ⟨edge, h⟩) member

end

/-! ### The reports -/

/-- A list of nodes reports the component of its first node: it is a cycle in the component that
starts with a node of lowest priority, and no cycle through that node is shorter.
-/
structure Reports (g : Graph) (cycle : List String) (start : String) : Prop where
  head : cycle.head? = some start
  unique : cycle.Nodup
  closed : g.IsCycle cycle
  connected : ∀ key ∈ cycle, g.StronglyConnected start key
  lowest : ∀ key, g.StronglyConnected start key → g.priority start ≤ g.priority key
  least : ∀ other, g.IsCycle other → start ∈ other → cycle.length ≤ other.length

/-- What is found for one component: a cycle through its lowest node. -/
def report? (g : Graph) (component : List String) : Option (List String) :=
  (g.lowest? component).map fun start => g.cycleFrom start component

theorem report?_isSome (g : Graph) (h : component ≠ [])
    : ∃ cycle, g.report? component = some cycle := by
  cases component with
  | nil => exact absurd rfl h
  | cons first rest => exact ⟨_, rfl⟩

theorem cycles_perm (g : Graph)
    : g.cycles.Perm
        ((g.leftover.components.filter g.leftover.isCyclic).filterMap g.leftover.report?) :=
  mergeSort_perm _ _

section

variable (wf : g.WellFormed)
include wf

theorem WellFormed.reports (there : component ∈ g.leftover.components.filter g.leftover.isCyclic)
    (found : g.leftover.report? component = some cycle)
    : ∃ start ∈ g.leftover.keys, component = g.leftover.classOf start ∧ g.Reports cycle start := by
  obtain ⟨member, cyclic⟩ := mem_filter.mp there
  obtain ⟨key, hkey, rfl⟩ := wf.leftover.mem_components member
  obtain ⟨start, low, rfl⟩ := Option.map_eq_some_iff.mp found
  obtain ⟨inside, lowest⟩ := lowest?_some low
  obtain ⟨hstart, connected⟩ := wf.leftover.mem_classOf.mp inside
  have same := wf.leftover.classOf_congr connected
  rw [same] at cyclic lowest inside ⊢
  have onCycle := (wf.leftover.isCyclic_classOf hstart).mp cyclic
  have leads := (wf.onCycle_leftover.mp onCycle).reachesCycle
  obtain ⟨n, positive, way⟩ := wf.leftover.exists_way_of_onCycle onCycle
  have shortest := shortestCycle_cycleFrom inside positive way
  refine ⟨start, hstart, rfl, {
    head := shortest.head
    unique := shortest.unique
    closed := ⟨start, shortest.head, shortest.linked.imp fun _ _ edge => ?_⟩
    connected := fun other h => ?_
    lowest := fun other h => ?_
    least := fun other cycle h => ?_
  }⟩
  · exact (wf.edge_leftover.mp edge).1
  · exact (wf.stronglyConnected_leftover leads).mp (wf.leftover.mem_classOf.mp (shortest.sub h)).2
  · have connected := (wf.stronglyConnected_leftover leads).mpr h
    have member := wf.leftover.reaches_mem hstart connected.1
    rw [← wf.priority_leftover hstart, ← wf.priority_leftover member]
    exact lowest other (wf.leftover.mem_classOf.mpr ⟨member, connected⟩)
  · have back := (cycle.way wf h).leftover wf leads
    exact shortest.least _ (length_pos_of_mem h) (wf.leftover.way_classOf back .refl)

theorem WellFormed.exists_report (cycle : g.OnCycle key)
    : ∃ reported ∈ g.cycles, ∃ start ∈ reported, g.StronglyConnected key start := by
  obtain ⟨_, edge, _⟩ := TransGen.head'_iff.mp cycle
  have leads := cycle.reachesCycle
  have member : key ∈ g.leftover.keys := wf.mem_leftover.mpr ⟨edge.source_mem, leads⟩
  have own : key ∈ g.leftover.classOf key := wf.leftover.mem_classOf.mpr ⟨member, .refl _ key⟩
  have cyclic : g.leftover.classOf key ∈ g.leftover.components.filter g.leftover.isCyclic :=
    mem_filter.mpr ⟨wf.leftover.classOf_mem_components member,
      (wf.leftover.isCyclic_classOf member).mpr (wf.onCycle_leftover.mpr cycle)⟩
  obtain ⟨reported, found⟩ := report?_isSome g.leftover (ne_nil_of_mem own)
  obtain ⟨start, _, same, reports⟩ := wf.reports cyclic found
  refine ⟨reported, (cycles_perm g).mem_iff.mpr (mem_filterMap.mpr ⟨_, cyclic, found⟩), start,
    mem_of_mem_head? reports.head, ?_⟩
  rw [same] at own
  exact ((wf.stronglyConnected_leftover leads).mp (wf.leftover.mem_classOf.mp own).2.symm)

/-- Different reports are of different components. -/
theorem WellFormed.cycles_separate : g.cycles.Pairwise fun first second =>
        ∀ a ∈ first, ∀ b ∈ second, ¬g.StronglyConnected a b := by
  refine ((cycles_perm g).pairwise_iff fun separate a ha b hb connected =>
    separate b hb a ha connected.symm).mpr ?_
  rw [pairwise_filterMap]
  refine (Pairwise.and_mem.mp (wf.leftover.components_separate.filter _)).imp ?_
  rintro first second ⟨hfirst, hsecond, separate⟩ one found two found' a ha b hb connected
  obtain ⟨start, hstart, rfl, reports⟩ := wf.reports hfirst found
  obtain ⟨start', hstart', rfl, reports'⟩ := wf.reports hsecond found'
  have joined : g.StronglyConnected start start' :=
    ((reports.connected a ha).trans connected).trans (reports'.connected b hb).symm
  have leads := (wf.mem_leftover.mp hstart).2
  exact separate start (wf.leftover.mem_classOf.mpr ⟨hstart, .refl _ _⟩) start'
    (wf.leftover.mem_classOf.mpr ⟨hstart', .refl _ _⟩)
    ((wf.stronglyConnected_leftover leads).mpr joined)

theorem WellFormed.reports_of_mem (h : cycle ∈ g.cycles)
    : ∃ start, g.Reports cycle start := by
  obtain ⟨component, there, found⟩ := mem_filterMap.mp ((cycles_perm g).mem_iff.mp h)
  obtain ⟨start, _, _, reports⟩ := wf.reports there found
  exact ⟨start, reports⟩

/-- Cycles are reported exactly when there are some. -/
theorem WellFormed.cycles_eq_nil_iff
    : g.cycles = [] ↔ ∀ key, ¬g.OnCycle key := by
  constructor
  · intro none key cycle
    obtain ⟨reported, member, _⟩ := wf.exists_report cycle
    simp [none] at member
  · intro acyclic
    refine eq_nil_iff_forall_not_mem.mpr fun reported member => ?_
    obtain ⟨start, reports⟩ := wf.reports_of_mem member
    exact acyclic start (reports.closed.onCycle wf (mem_of_mem_head? reports.head))

end

theorem pairwise_mergeSort_by {α : Type} (f : α → Int) (l : List α)
    : (l.mergeSort fun a b => decide (f a ≤ f b)).Pairwise fun a b => f a ≤ f b := by
  refine (pairwise_mergeSort ?_ ?_ l).imp of_decide_eq_true
  · intro a b c first second
    simp only [decide_eq_true_eq] at first second ⊢
    exact first.trans second
  · intro a b
    simp only [Bool.or_eq_true, decide_eq_true_eq]
    exact le_total _ _

/-- The reports stand in the order of the priorities of their first nodes. -/
theorem cycles_sorted (g : Graph) : g.cycles.Pairwise fun first second =>
        ∀ a ∈ first.head?, ∀ b ∈ second.head?, g.priority a ≤ g.priority b := by
  refine (pairwise_mergeSort_by (fun cycle : List String => g.priority (cycle.head?.getD "")) _).imp ?_
  intro first second sorted a ha b hb
  rwa [Option.mem_def.mp ha, Option.mem_def.mp hb] at sorted

/-! ### The main statements -/

/-- The construction order of any graph lists once, after all they depend on, exactly the nodes
that lead to no cycle, always the least of those that can come next; and there are cycles to report
exactly when some node is left out, that is when some node leads back to itself.
-/
theorem order_exact (additions : List Addition)
    : let g := ofAdditions additions
      g.order.Nodup
      ∧ (∀ key, key ∈ g.order ↔ key ∈ g.keys ∧ ¬g.ReachesCycle key)
      ∧ (∀ i key,
          g.order[i]? = some key
          → (∀ d, g.Edge key d → d ∈ g.order.take i)
            ∧ g.Available (g.order.take i) key
            ∧ ∀ other, g.Available (g.order.take i) other → g.rankOf key ≤ g.rankOf other)
      ∧ (g.cycles = [] ↔ ∀ key ∈ g.keys, key ∈ g.order)
      ∧ (g.cycles = [] ↔ ∀ key, ¬g.OnCycle key) := by
  intro g
  have wf : g.WellFormed := wellFormed_ofAdditions additions
  have listing := wf.listing_order
  refine ⟨listing.nodup, fun key => wf.mem_order, fun i key found => ?_, ?_,
    wf.cycles_eq_nil_iff⟩
  · obtain ⟨available, least⟩ := listing.position found
    exact ⟨available.2.2, available, least⟩
  · rw [wf.cycles_eq_nil_iff, wf.keys_subset_order_iff]

/-- The reports of any graph: each one names a component by a shortest cycle through a node of its
lowest priority, each component with a cycle has exactly one, and they are sorted by the priority of
their first nodes.
-/
theorem cycles_exact (additions : List Addition)
    : let g := ofAdditions additions
      (∀ cycle ∈ g.cycles, ∃ start, g.Reports cycle start)
      ∧ (∀ key,
          g.OnCycle key
          → ∃! i : Nat, ∃ cycle,
              g.cycles[i]? = some cycle ∧ ∀ other ∈ cycle, g.StronglyConnected key other)
      ∧ g.cycles.Pairwise fun first second =>
          ∀ a ∈ first.head?, ∀ b ∈ second.head?, g.priority a ≤ g.priority b := by
  intro g
  have wf : g.WellFormed := wellFormed_ofAdditions additions
  refine ⟨fun cycle => wf.reports_of_mem, fun key cycle => ?_, cycles_sorted g⟩
  obtain ⟨reported, member, node, there, connected⟩ := wf.exists_report cycle
  obtain ⟨start, reports⟩ := wf.reports_of_mem member
  obtain ⟨i, found⟩ := mem_iff_getElem?.mp member
  have own : g.StronglyConnected key start := connected.trans (reports.connected node there).symm
  refine ⟨i, ⟨reported, found, fun other h => own.trans (reports.connected other h)⟩, ?_⟩
  rintro j ⟨reported', found', inside⟩
  obtain ⟨start', reports'⟩ := wf.reports_of_mem (mem_iff_getElem?.mpr ⟨j, found'⟩)
  have mem := mem_of_mem_head? reports.head
  have mem' := mem_of_mem_head? reports'.head
  have joined : g.StronglyConnected start start' := own.symm.trans (inside start' mem')
  obtain ⟨hi, rfl⟩ := List.getElem?_eq_some_iff.mp found
  obtain ⟨hj, rfl⟩ := List.getElem?_eq_some_iff.mp found'
  -- Otherwise two places of the list hold reports of one component.
  have separate := pairwise_iff_getElem.mp wf.cycles_separate
  rcases Nat.lt_trichotomy i j with before | same | after
  · exact absurd joined (separate i j hi hj before start mem start' mem')
  · exact same.symm
  · exact absurd joined.symm (separate j i hj hi after start' mem' start mem)

end Fxml.Graph
