import Mathlib.Data.Fintype.Card
import Mathlib.Data.List.Perm.Subperm
import Mathlib.Data.Prod.Lex
import Mathlib.Data.Set.Finite.List
import Mathlib.Data.String.Basic
import Fxml.Proofs.Graph.WellFormed
import Fxml.Proofs.Table

/-! The construction order is the greedy one, and it lists exactly the nodes that reach no cycle:
when no node is available, each node that is left depends on another one that is left. The sort
keeps for each node how many of its dependencies are not listed, and queues the nodes for which this
number has become zero.
-/

open List

namespace Fxml.Graph

open Relation

variable {g : Graph} {n : GraphNode} {listed : List String} {key dependent : String}
  {entry : Int × String} {entries : List (Int × String)} {s : Sorting}

/-! ### The queue -/

theorem precedes_iff {a b : Int × String} : precedes a b = true ↔ toLex a < toLex b := by
  simp only [precedes, Prod.Lex.lt_iff, Bool.or_eq_true, Bool.and_eq_true, decide_eq_true_eq,
    beq_iff_eq, ofLex_toLex]

/-- A push adds the entry and keeps all others. -/
theorem push_perm (entry : Int × String) (entries : List (Int × String))
    : (push entry entries).Perm (entry :: entries) := by
  induction entries with
  | nil => exact .refl _
  | cons first rest ih =>
    rw [push]
    split
    · exact .refl _
    · exact (ih.cons first).trans (.swap entry first rest)

/-- A push of a new entry keeps the entries in their order. -/
theorem push_sorted (absent : entry ∉ entries) (sorted : entries.Pairwise (toLex · < toLex ·))
    : (push entry entries).Pairwise (toLex · < toLex ·) := by
  induction entries with
  | nil => exact pairwise_singleton _ _
  | cons first rest ih =>
    obtain ⟨different, absent⟩ := (not_or.mp (mt mem_cons.mpr absent))
    obtain ⟨least, others⟩ := pairwise_cons.mp sorted
    rw [push]
    split
    · rename_i before
      have before := precedes_iff.mp before
      refine pairwise_cons.mpr ⟨forall_mem_cons.mpr ⟨before, fun e member => ?_⟩, sorted⟩
      exact before.trans (least e member)
    · rename_i later
      have later : toLex first < toLex entry :=
        lt_of_le_of_ne (not_lt.mp (mt precedes_iff.mpr later))
          fun same => different (toLex.injective same).symm
      refine pairwise_cons.mpr ⟨fun e member => ?_, ih absent others⟩
      rcases mem_cons.mp ((push_perm entry rest).mem_iff.mp member) with rfl | old
      · exact later
      · exact least e old

/-! ### The nodes that depend on a node -/

theorem get?_noteDependents {dependencies : List String} (once : dependencies.Nodup)
    (t : Table (List String)) (node key : String)
    : (dependencies.foldl (noteDependent node) t).get? key
      = if key ∈ dependencies then some ((t.get? key).getD [] ++ [node]) else t.get? key := by
  induction dependencies generalizing t with
  | nil => simp
  | cons d rest ih =>
    obtain ⟨absent, once⟩ := nodup_cons.mp once
    rw [foldl_cons, ih once, noteDependent, Table.get?_put]
    by_cases same : key = d
    · subst same
      simp [absent]
    · simp [same]

theorem get?_dependents_foldl {nodes : List GraphNode} {before : List String}
    (single : ∀ n ∈ nodes, n.dependencies.Nodup) (t : Table (List String))
    (found : t.get? key = some before)
    : (nodes.foldl (fun t n => n.dependencies.foldl (noteDependent n.key) t) t).get? key
      = some (before ++ (nodes.filter (key ∈ ·.dependencies)).map (·.key)) := by
  induction nodes generalizing t before with
  | nil => simpa using found
  | cons n rest ih =>
    obtain ⟨once, single⟩ := forall_mem_cons.mp single
    have first := get?_noteDependents once t n.key key
    rw [foldl_cons]
    by_cases needed : key ∈ n.dependencies
    · rw [if_pos needed, found] at first
      rw [ih single _ first]
      simp [needed]
    · rw [if_neg needed, found] at first
      rw [ih single _ first]
      simp [needed]

/-- Each node is listed once with every node it depends on. -/
theorem WellFormed.dependents_get? (wf : g.WellFormed) (member : key ∈ g.keys)
    : ∃ found, g.dependents.get? key = some found
      ∧ found.Nodup ∧ ∀ node, node ∈ found ↔ g.Edge node key := by
  have start : Table.get? (g.keys.map (·, ([] : List String))) key = some [] := by
    refine Table.get?_of_mem ?_ (mem_map_of_mem member)
    simpa [Table.keys, Function.comp_def] using wf.unique
  refine ⟨_, get?_dependents_foldl wf.single _ start, ?_, fun node => ?_⟩
  · exact wf.unique.sublist (filter_sublist.map _)
  · simp only [nil_append, mem_map, mem_filter, decide_eq_true_eq]
    constructor
    · rintro ⟨n, ⟨there, needed⟩, rfl⟩
      exact wf.edge_of_mem there needed
    · intro edge
      obtain ⟨n, there, same, needed⟩ := edge.exists_node
      exact ⟨n, ⟨there, needed⟩, same⟩

/-! ### Lists of greedy choices -/

/-- What nodes are compared by: the priority first, then the key. -/
def rankOf (g : Graph) (key : String) : Int ×ₗ String := toLex (g.priority key, key)

/-- A node can come next: it is not listed yet, and all it depends on is. -/
def Available (g : Graph) (listed : List String) (key : String) : Prop :=
  key ∈ g.keys ∧ key ∉ listed ∧ ∀ d, g.Edge key d → d ∈ listed

/-- The lists that greedy choices lead to. -/
inductive Listing (g : Graph) : List String → Prop
  | nil : Listing g []
  | snoc {listed : List String} {key : String} (before : Listing g listed)
    (next : g.Available listed key)
    (least : ∀ other, g.Available listed other → g.rankOf key ≤ g.rankOf other)
    : Listing g (listed ++ [key])

/-- Every position of a listing holds the least of the nodes available there. -/
theorem Listing.position (h : g.Listing listed) {i : Nat} (found : listed[i]? = some key)
    : g.Available (listed.take i) key
      ∧ ∀ other, g.Available (listed.take i) other → g.rankOf key ≤ g.rankOf other := by
  induction h with
  | nil => simp at found
  | @snoc listed last before next least ih =>
    rcases Nat.lt_or_ge i listed.length with earlier | later
    · rw [getElem?_append_left earlier] at found
      rw [take_append_of_le_length earlier.le]
      exact ih found
    · obtain ⟨bound, same⟩ := List.getElem?_eq_some_iff.mp found
      have here : i = listed.length := by simp at bound; omega
      subst here
      simp only [getElem_concat_length] at same
      simp only [take_left']
      exact same ▸ ⟨next, least⟩

theorem Listing.nodup (h : g.Listing listed) : listed.Nodup := by
  induction h with
  | nil => simp
  | snoc before next least ih =>
    refine nodup_append.mpr ⟨ih, by simp, ?_⟩
    intro a ha b hb same
    exact next.2.1 (mem_singleton.mp hb ▸ same ▸ ha)

theorem Listing.subset_keys (h : g.Listing listed) : listed ⊆ g.keys := by
  induction h with
  | nil => simp
  | snoc before next least ih =>
    intro key member
    rcases mem_append.mp member with old | new
    · exact ih old
    · exact mem_singleton.mp new ▸ next.1

/-- What a listed node depends on is listed. -/
theorem Listing.closed (h : g.Listing listed) {d : String} (member : key ∈ listed)
    (edge : g.Edge key d)
    : d ∈ listed := by
  induction h with
  | nil => cases member
  | snoc before next least ih =>
    rcases mem_append.mp member with old | new
    · exact mem_append_left _ (ih old)
    · exact mem_append_left _ (next.2.2 d (mem_singleton.mp new ▸ edge))

/-- Of two lists of greedy choices one begins with the other: at the first place where they could
differ both hold the least node that is available.
-/
theorem Listing.comparable {other : List String} (h : g.Listing listed) (h' : g.Listing other)
    : listed <+: other ∨ other <+: listed := by
  induction h with
  | nil => exact .inl nil_prefix
  | @snoc listed key before next least ih =>
    rcases ih with ⟨rest, rfl⟩ | shorter
    · cases rest with
      | nil => exact .inr (by simp)
      | cons second rest =>
        have found : (listed ++ second :: rest)[listed.length]? = some second := by simp
        obtain ⟨available, lowest⟩ := h'.position found
        rw [take_left' rfl] at available lowest
        have same := le_antisymm (least second available) (lowest key next)
        obtain rfl : key = second := congrArg Prod.snd (toLex.injective same)
        exact .inl ⟨rest, by simp⟩
    · exact .inr (shorter.trans (prefix_append _ _))

/-! ### The state of the sort -/

/-- How many nodes that a node depends on are not listed. -/
def waits (g : Graph) (listed : List String) (key : String) : Nat :=
  ((g.dependencies key).filter (· ∉ listed)).length

theorem waits_eq_zero_iff : g.waits listed key = 0 ↔ ∀ d, g.Edge key d → d ∈ listed := by
  simp [waits, filter_eq_nil_iff, Edge]

/-- A node that is listed lowers the number for the nodes that depend on it, and for no other. -/
theorem WellFormed.waits_snoc (wf : g.WellFormed) (absent : key ∉ listed) (node : String)
    : g.waits listed node
      = g.waits (listed ++ [key]) node + if key ∈ g.dependencies node then 1 else 0 := by
  have once := wf.nodup_dependencies node
  unfold waits
  generalize g.dependencies node = dependencies at once
  induction dependencies with
  | nil => simp
  | cons d rest ih =>
    obtain ⟨first, once⟩ := nodup_cons.mp once
    have rest := ih once
    by_cases same : d = key
    · subst same
      simp [absent, first] at rest ⊢
      omega
    · by_cases seen : d ∈ listed
      · simp [same, Ne.symm same, seen] at rest ⊢
        omega
      · simp [same, Ne.symm same, seen] at rest ⊢
        omega

/-- The counters hold what each node waits for, and the queue holds the nodes among `seen` that are
not listed and wait for none, each once and in order.
-/
structure Sorting.Tracks (g : Graph) (seen : String → Prop) (left : String → Nat) (s : Sorting)
    : Prop where
  pending : ∀ key ∈ g.keys, s.pending.get? key = some (left key : Int)
  sorted : s.ready.Pairwise (toLex · < toLex ·)
  ready
    : ∀ e,
        e ∈ s.ready
        ↔ e.1 = g.priority e.2 ∧ seen e.2 ∧ e.2 ∉ s.listed ∧ left e.2 = 0

namespace Sorting

variable {seen : String → Prop} {left : String → Nat}

@[simp] theorem listed_queue (key : String) : (s.queue g key).listed = s.listed := by
  unfold queue
  split <;> rfl

@[simp] theorem listed_release (key : String) : (s.release g key).listed = s.listed :=
  listed_queue key

/-- Queueing takes one more node into account. -/
theorem Tracks.queue (h : Tracks g seen left s) (member : key ∈ g.keys) (new : ¬seen key)
    (unlisted : key ∉ s.listed)
    : Tracks g (fun k => seen k ∨ k = key) left (s.queue g key) := by
  have pending := h.pending key member
  unfold Sorting.queue
  by_cases none : left key = 0
  · rw [if_pos (by rw [pending, none]; rfl)]
    have absent : (g.priority key, key) ∉ s.ready := fun queued => new ((h.ready _).mp queued).2.1
    refine ⟨h.pending, push_sorted absent h.sorted, fun e => ?_⟩
    rw [(push_perm _ _).mem_iff, mem_cons, h.ready]
    constructor
    · rintro (rfl | ⟨priority, known, fresh, zero⟩)
      · exact ⟨rfl, .inr rfl, unlisted, none⟩
      · exact ⟨priority, .inl known, fresh, zero⟩
    · rintro ⟨priority, known | same, fresh, zero⟩
      · exact .inr ⟨priority, known, fresh, zero⟩
      · exact .inl (Prod.ext (same ▸ priority) same)
  · rw [if_neg (by rw [pending]; simpa using none)]
    refine ⟨h.pending, h.sorted, fun e => (h.ready e).trans ?_⟩
    constructor
    · rintro ⟨priority, known, rest⟩
      exact ⟨priority, .inl known, rest⟩
    · rintro ⟨priority, known | same, fresh, zero⟩
      · exact ⟨priority, known, fresh, zero⟩
      · exact (none (same ▸ zero)).elim

/-- A release lowers one counter, and queues the node when it was the last that it waited for. -/
theorem Tracks.release {count : Nat} (h : Tracks g (· ∈ g.keys) left s)
    (member : dependent ∈ g.keys) (unlisted : dependent ∉ s.listed)
    (waiting : left dependent = count + 1)
    : Tracks g (· ∈ g.keys) (Function.update left dependent count) (s.release g dependent) := by
  have lowered : (s.pending.get? dependent).getD 0 - 1 = (count : Int) := by
    rw [h.pending dependent member, waiting]
    simp
  simp only [Sorting.release, lowered]
  -- Before it is queued the node is left out of account: its counter was not zero until now.
  have others : Tracks g (fun k => k ∈ g.keys ∧ k ≠ dependent)
      (Function.update left dependent count)
      { s with pending := s.pending.put dependent (count : Int) } := by
    refine ⟨fun key node => ?_, h.sorted, fun e => ?_⟩
    · rw [Table.get?_put]
      by_cases same : key = dependent
      · simp [same]
      · simp [same, h.pending key node]
    · rw [h.ready]
      by_cases same : e.2 = dependent
      · simp [same, waiting]
      · simp [same]
  have queued := others.queue member (fun known => known.2 rfl) unlisted
  refine ⟨queued.pending, queued.sorted, fun e => (queued.ready e).trans ?_⟩
  by_cases same : e.2 = dependent
  · simp [same, member]
  · simp [same]

theorem Tracks.releases {dependents : List String} (h : Tracks g (· ∈ g.keys) left s)
    (once : dependents.Nodup)
    (waiting : ∀ d ∈ dependents, d ∈ g.keys ∧ d ∉ s.listed ∧ 0 < left d)
    : Tracks g (· ∈ g.keys) (fun k => if k ∈ dependents then left k - 1 else left k)
        (dependents.foldl (Sorting.release g) s) := by
  induction dependents generalizing s left with
  | nil => simpa using h
  | cons first rest ih =>
    obtain ⟨absent, once⟩ := nodup_cons.mp once
    obtain ⟨⟨member, unlisted, positive⟩, waiting⟩ := forall_mem_cons.mp waiting
    have released := h.release member unlisted (Nat.sub_add_cancel positive).symm
    have different {d : String} (there : d ∈ rest) : d ≠ first := fun same => absent (same ▸ there)
    have later := ih released once fun d there => by
      simpa [different there] using waiting d there
    have counts : (fun k => if k ∈ rest then Function.update left first (left first - 1) k - 1
          else Function.update left first (left first - 1) k)
        = fun k => if k ∈ first :: rest then left k - 1 else left k := by
      funext k
      by_cases same : k = first
      · simp [same, absent]
      · simp [same]
    exact counts ▸ later

theorem listed_releases (dependents : List String)
    : (dependents.foldl (Sorting.release g) s).listed = s.listed := by
  induction dependents generalizing s with
  | nil => rfl
  | cons first rest ih => rw [foldl_cons, ih, listed_release]

/-- Between two rounds the list is one of greedy choices, and the counters and the queue fit it. -/
structure Steady (g : Graph) (s : Sorting) : Prop where
  listing : g.Listing s.listed
  tracks : Tracks g (· ∈ g.keys) (g.waits s.listed) s

theorem Steady.mem_ready (h : Steady g s)
    : entry ∈ s.ready ↔ entry.1 = g.priority entry.2 ∧ g.Available s.listed entry.2 := by
  rw [h.tracks.ready, waits_eq_zero_iff, Available]

theorem start_queued (seen keys : List String) (once : (seen ++ keys).Nodup)
    (sub : keys ⊆ g.keys) (empty : s.listed = []) (h : Tracks g (· ∈ seen) left s)
    : Tracks g (· ∈ seen ++ keys) left (keys.foldl (Sorting.queue g) s) := by
  induction keys generalizing seen s with
  | nil => simpa using h
  | cons key rest ih =>
    have new : key ∉ seen := fun old => (nodup_append.mp once).2.2 key old key mem_cons_self rfl
    have queued := h.queue (sub mem_cons_self) new (by simp [empty])
    have later := ih (seen ++ [key]) (by simpa using once)
      (fun k there => sub (mem_cons_of_mem _ there)) (listed_queue key ▸ empty) (by simpa using queued)
    simpa using later

theorem steady_start (wf : g.WellFormed) : Steady g (start g) := by
  have counters : Tracks g (· ∈ []) (g.waits [])
      { pending := g.nodes.map fun n => (n.key, (n.dependencies.length : Int)) } := by
    refine ⟨fun key member => ?_, .nil, fun e => by simp⟩
    obtain ⟨n, there, _, rfl⟩ := exists_node member
    refine Table.get?_of_mem ?_ ?_
    · simpa [Table.keys, keys, Function.comp_def] using wf.unique
    · refine mem_map.mpr ⟨n, there, ?_⟩
      rw [waits, wf.dependencies_key there]
      simp
  have listed {s : Sorting} (keys : List String) : (keys.foldl (Sorting.queue g) s).listed = s.listed := by
    induction keys generalizing s with
    | nil => rfl
    | cons key rest ih => rw [foldl_cons, ih, listed_queue]
  have queued := start_queued [] g.keys wf.unique (fun _ => id) rfl counters
  unfold start
  refine ⟨by rw [listed]; exact .nil, ?_⟩
  rw [listed]
  exact queued

/-- One round lists the least node that is available, and afterwards everything fits again. -/
theorem Steady.round (wf : g.WellFormed) (h : Steady g s) {priority : Int}
    {rest : List (Int × String)} (first : s.ready = (priority, key) :: rest)
    : Steady g (((g.dependents.get? key).getD []).foldl (Sorting.release g)
        { s with ready := rest, listed := s.listed ++ [key] }) := by
  obtain ⟨least, sorted⟩ := pairwise_cons.mp (first ▸ h.tracks.sorted)
  obtain ⟨rank, member, unlisted, needed⟩ : priority = g.priority key ∧ g.Available s.listed key :=
    h.mem_ready.mp (first ▸ mem_cons_self : (priority, key) ∈ s.ready)
  have listing : g.Listing (s.listed ++ [key]) := by
    refine h.listing.snoc ⟨member, unlisted, needed⟩ fun other there => ?_
    have queued : (g.priority other, other) ∈ s.ready := h.mem_ready.mpr ⟨rfl, there⟩
    rcases mem_cons.mp (first ▸ queued) with same | later
    · obtain rfl : other = key := congrArg Prod.snd same
      exact le_refl _
    · have before := least _ later
      rw [rank] at before
      exact before.le
  have popped : Tracks g (· ∈ g.keys) (g.waits s.listed)
      { s with ready := rest, listed := s.listed ++ [key] } := by
    refine ⟨h.tracks.pending, sorted, fun e => ?_⟩
    have all := h.tracks.ready e
    rw [first, mem_cons] at all
    simp only [mem_append, mem_singleton, not_or]
    constructor
    · intro later
      obtain ⟨priority, node, fresh, zero⟩ := all.mp (.inr later)
      refine ⟨priority, node, ⟨fresh, fun same => ?_⟩, zero⟩
      have here : e = (_, key) := Prod.ext (priority.trans (same ▸ rank.symm)) same
      exact (here ▸ least e later).false
    · rintro ⟨priority, node, ⟨fresh, different⟩, zero⟩
      refine (all.mpr ⟨priority, node, fresh, zero⟩).resolve_left fun same => different ?_
      rw [same]
  obtain ⟨dependents, found, once, needs⟩ := wf.dependents_get? member
  have drop := wf.waits_snoc unlisted
  rw [found, Option.getD_some]
  have released := popped.releases once fun d there => by
    have edge : key ∈ g.dependencies d := (needs d).mp there
    have positive := drop d
    rw [if_pos edge] at positive
    refine ⟨Edge.source_mem edge, fun old => ?_, by omega⟩
    rcases mem_append.mp old with old | new
    · exact unlisted (h.listing.closed old edge)
    · rw [mem_singleton.mp new] at edge
      exact unlisted (needed key edge)
  have counts : (fun k => if k ∈ dependents then g.waits s.listed k - 1 else g.waits s.listed k)
      = g.waits (s.listed ++ [key]) := by
    funext k
    have := drop k
    by_cases edge : key ∈ g.dependencies k
    · rw [if_pos ((needs k).mpr edge)]
      rw [if_pos edge] at this
      omega
    · rw [if_neg (mt (needs k).mp edge)]
      rw [if_neg edge] at this
      omega
  rw [counts] at released
  refine ⟨?_, ?_⟩
  · rw [listed_releases]
    exact listing
  · rw [listed_releases]
    exact released

/-- As many rounds as there are nodes empty the queue. -/
theorem Steady.run (wf : g.WellFormed) {steps : Nat} (h : Steady g s)
    (enough : g.nodes.length ≤ s.listed.length + steps)
    : Steady g (Sorting.run g g.dependents steps s)
      ∧ (Sorting.run g g.dependents steps s).ready = [] := by
  induction steps generalizing s with
  | zero =>
    refine ⟨h, eq_nil_iff_forall_not_mem.mpr fun e queued => ?_⟩
    have full : g.keys ⊆ s.listed := by
      have sub := h.listing.nodup.subperm h.listing.subset_keys
      exact (sub.perm_of_length_le (by simpa [keys] using enough)).symm.subset
    obtain ⟨_, member, fresh, _⟩ := h.mem_ready.mp queued
    exact fresh (full member)
  | succ steps ih =>
    unfold Sorting.run
    split
    · exact ⟨h, ‹_›⟩
    · rename_i first
      refine ih (h.round wf first) ?_
      rw [listed_releases]
      simp only [length_append, length_singleton]
      omega

end Sorting

theorem WellFormed.sorted (wf : g.WellFormed)
    : (Sorting.run g g.dependents g.nodes.length (.start g)).Steady g
      ∧ (Sorting.run g g.dependents g.nodes.length (.start g)).ready = [] :=
  (Sorting.steady_start wf).run wf (by omega)

theorem WellFormed.listing_order (wf : g.WellFormed) : g.Listing g.order := wf.sorted.1.listing

/-- Nothing more can follow the construction order. -/
theorem WellFormed.not_available_order (wf : g.WellFormed) (key : String)
    : ¬g.Available g.order key := by
  intro h
  have queued : (g.priority key, key) ∈ _ := wf.sorted.1.mem_ready.mpr ⟨rfl, h⟩
  rw [wf.sorted.2] at queued
  cases queued

/-! ### Which nodes are listed -/

/-- A node lies on a way that leads back to it. -/
def OnCycle (g : Graph) (key : String) : Prop := TransGen g.Edge key key

/-- Following dependencies from a node can lead to a cycle. -/
def ReachesCycle (g : Graph) (key : String) : Prop :=
  ∃ other, ReflTransGen g.Edge key other ∧ g.OnCycle other

/-- Every descent along dependencies from a listed node ends. -/
theorem Listing.acc (h : g.Listing listed)
    : ∀ key ∈ listed, Acc (fun b a => g.Edge a b) key := by
  induction h with
  | nil => simp
  | snoc before next least ih =>
    intro key member
    rcases mem_append.mp member with old | new
    · exact ih key old
    · rw [mem_singleton.mp new]
      exact Acc.intro _ fun d edge => ih d (next.2.2 d edge)

/-- A node from which every descent ends reaches no cycle: a way to a cycle, and around it, can be
followed for ever.
-/
theorem not_reachesCycle_of_acc (h : Acc (fun b a => g.Edge a b) key) : ¬g.ReachesCycle key := by
  induction h with
  | intro key _ ih =>
    rintro ⟨other, way, cycle⟩
    rcases ReflTransGen.cases_head way with rfl | ⟨next, edge, rest⟩
    · obtain ⟨next, edge, back⟩ := TransGen.head'_iff.mp cycle
      exact ih next edge ⟨_, back, cycle⟩
    · exact ih next edge ⟨other, rest, cycle⟩

/-- In a finite graph every descent from a node that reaches no cycle ends. Witness: between such
nodes the transitive closure of dependence is irreflexive, hence well founded.
-/
theorem WellFormed.acc_of_not_reachesCycle (wf : g.WellFormed) (member : key ∈ g.keys)
    (h : ¬g.ReachesCycle key)
    : Acc (fun b a => g.Edge a b) key := by
  let Calm := { k : String // k ∈ g.keys ∧ ¬g.ReachesCycle k }
  have : Finite Calm :=
    ((finite_toSet g.keys).subset fun k (hk : k ∈ g.keys ∧ _) => hk.1).to_subtype
  let below (b a : Calm) : Prop := TransGen g.Edge a.1 b.1
  have : Std.Irrefl below := ⟨fun a around => a.2.2 ⟨a.1, .refl, around⟩⟩
  have descent : WellFounded below := Finite.wellFounded_of_trans_of_irrefl below
  suffices all : ∀ a : Calm, Acc (fun b a => g.Edge a b) a.1 from all ⟨key, member, h⟩
  intro a
  induction a using descent.induction with
  | _ a ih =>
    refine Acc.intro _ fun b edge => ?_
    refine ih ⟨b, wf.target_mem edge, ?_⟩ (TransGen.single edge)
    rintro ⟨other, way, cycle⟩
    exact a.2.2 ⟨other, way.head edge, cycle⟩

/-- The construction order lists exactly the nodes that reach no cycle. -/
theorem WellFormed.mem_order (wf : g.WellFormed)
    : key ∈ g.order ↔ key ∈ g.keys ∧ ¬g.ReachesCycle key := by
  constructor
  · intro h
    exact ⟨wf.listing_order.subset_keys h,
      not_reachesCycle_of_acc (wf.listing_order.acc key h)⟩
  · rintro ⟨member, calm⟩
    -- A descent that ends must end in the order, since a node outside leads to another outside.
    induction wf.acc_of_not_reachesCycle member calm with
    | intro key _ ih =>
      by_contra absent
      refine wf.not_available_order key ⟨member, absent, fun d edge => ?_⟩
      refine ih d edge (wf.target_mem edge) ?_
      rintro ⟨other, way, cycle⟩
      exact calm ⟨other, way.head edge, cycle⟩

theorem WellFormed.reachesCycle_iff (wf : g.WellFormed) (member : key ∈ g.keys)
    : g.ReachesCycle key ↔ key ∉ g.order := by
  rw [wf.mem_order]
  tauto

/-- A graph without cycles is listed as a whole. -/
theorem WellFormed.keys_subset_order_iff (wf : g.WellFormed)
    : (∀ key ∈ g.keys, key ∈ g.order) ↔ ∀ key, ¬g.OnCycle key := by
  constructor
  · intro all key cycle
    obtain ⟨next, edge, _⟩ := TransGen.head'_iff.mp cycle
    have member := edge.source_mem
    exact (wf.reachesCycle_iff member).mp ⟨key, .refl, cycle⟩ (all key member)
  · intro acyclic key member
    exact wf.mem_order.mpr ⟨member, fun ⟨other, _, cycle⟩ => acyclic other cycle⟩

end Fxml.Graph
