import Mathlib.Data.List.Nodup
import Mathlib.Data.List.Perm.Subperm
import Mathlib.Logic.Relation
import Fxml.Graph.Basic
import Fxml.Proofs.Table

/-! The search for strongly connected components finds them: it ends, its components partition the
nodes into classes that are joined by edges both ways, and edges lead to earlier components only.

A node stays open as long as edges lead from it to a node that was open before it was entered; the
lowest number that is seen tells whether they do.
-/

open List Fxml.Table

namespace Fxml.Graph

open Relation

variable {keys : List String} {edges : String → List String}

def Leads (edges : String → List String) (a b : String) : Prop := b ∈ edges a

abbrev Reaches (edges : String → List String) : String → String → Prop := ReflTransGen (Leads edges)

/-- Edges lead from each of two nodes to the other. -/
def Joined (edges : String → List String) (a b : String) : Prop :=
  Reaches edges a b ∧ Reaches edges b a

/-- Edges do not lead out of a set of nodes that none of its nodes has an edge out of. -/
theorem mem_of_leads {inside : List String} (closed : ∀ a ∈ inside, ∀ b ∈ edges a, b ∈ inside)
    {a b : String} (way : Reaches edges a b) (member : a ∈ inside)
    : b ∈ inside := by
  induction way with
  | refl => exact member
  | tail _ edge ih => exact closed _ ih _ edge

namespace Search

/-! ### What holds of a search at any time -/

/-- Each node entered is open or in a component, and the components are classes that no edge leaves
for a node outside them or in a later one.
-/
structure Valid (keys : List String) (edges : String → List String) (s : Search) : Prop where
  unique : (s.stack ++ s.components.flatten).Nodup
  entered : ∀ key, key ∈ s.numbers.keys ↔ key ∈ s.stack ∨ key ∈ s.components.flatten
  distinct : s.numbers.keys.Nodup
  sub : s.numbers.keys ⊆ keys
  below : ∀ key n, s.numbers.get? key = some n → n < s.numbers.length
  classes : ∀ nodes ∈ s.components, ∃ a ∈ nodes, ∀ b, b ∈ nodes ↔ Joined edges a b
  closed : ∀ a ∈ s.components.flatten, ∀ b ∈ edges a, b ∈ s.components.flatten
  ordered : s.components.Pairwise fun earlier later => ∀ a ∈ earlier, ∀ b ∈ later, b ∉ edges a

variable {s t later : Search} {key next b a : String} {opened more done rest : List String}
  {low n : Nat}

theorem Valid.stack_number (valid : s.Valid keys edges) (member : key ∈ s.stack)
    : ∃ n, s.numbers.get? key = some n ∧ n < s.numbers.length := by
  obtain ⟨n, found⟩ := exists_get? ((valid.entered key).mpr (.inl member))
  exact ⟨n, found, valid.below key n found⟩

theorem mem_keys_enter {other : String}
    : other ∈ (s.enter key).numbers.keys ↔ other = key ∨ other ∈ s.numbers.keys :=
  mem_keys_put

theorem get?_enter (s : Search) (key other : String)
    : (s.enter key).numbers.get? other
      = if other = key then some s.numbers.length else s.numbers.get? other :=
  get?_put

theorem Valid.enter (valid : s.Valid keys edges) (node : key ∈ keys) (absent : key ∉ s.numbers.keys)
    : (s.enter key).Valid keys edges where
  unique := by
    refine nodup_cons.mpr ⟨fun member => absent ?_, valid.unique⟩
    exact (valid.entered key).mpr (mem_append.mp member)
  entered other := by
    rw [mem_keys_enter, valid.entered, ← or_assoc, ← mem_cons]
    rfl
  distinct := nodup_put valid.distinct _ _
  sub other there := by
    rcases mem_keys_enter.mp there with rfl | before
    · exact node
    · exact valid.sub before
  below other n found := by
    have longer : (s.enter key).numbers.length = s.numbers.length + 1 := by
      simp [Search.enter, put, mt Table.contains_iff.mp absent]
    rw [get?_enter] at found
    rw [longer]
    split at found
    · cases found
      exact Nat.lt_succ_self _
    · exact Nat.lt_succ_of_lt (valid.below other n found)
  classes := valid.classes
  closed := valid.closed
  ordered := valid.ordered

/-! ### What a search from one node does -/

/-- How far a search from a node has come that has followed some edges of the nodes entered. The
nodes it has opened are reached from the node and lead to it or to a node that was open before; so
does the node itself when the lowest number seen is not its own; and no edge followed from them leads
to an open node with a lower number.
-/
structure Progress (edges followed : String → List String) (s t : Search) (key : String) (low : Nat)
    (opened : List String) : Prop where
  stack : t.stack = opened ++ s.stack
  fresh : ∀ a ∈ opened, a ∉ s.numbers.keys
  kept : ∀ a n, s.numbers.get? a = some n → t.numbers.get? a = some n
  above : ∀ a n, a ∉ s.numbers.keys → t.numbers.get? a = some n → s.numbers.length ≤ n
  settled : ∀ a ∈ t.numbers.keys, a ∉ s.numbers.keys → ∀ b ∈ followed a, b ∈ t.numbers.keys
  here : key ∈ t.numbers.keys
  down : ∀ a ∈ opened, Reaches edges key a
  up : ∀ a ∈ opened, ∃ b ∈ key :: s.stack, Reaches edges a b
  lowest : low = s.numbers.length ∨ ∃ b ∈ s.stack, s.numbers.get? b = some low ∧ Reaches edges key b
  bound : ∀ a ∈ opened, ∀ b ∈ followed a, b ∈ s.stack → ∀ n, s.numbers.get? b = some n → low ≤ n

section Progress

variable {followed : String → List String} (progress : Progress edges followed s t key low opened)

include progress

theorem Progress.subset : s.numbers.keys ⊆ t.numbers.keys := by
  intro key there
  obtain ⟨n, found⟩ := exists_get? there
  exact mem_keys_of_mem (mem_of_get? (progress.kept key n found))

/-- Where the lowest number seen is not that of the node, all nodes opened lead to one before. -/
theorem Progress.leads (left : low = s.numbers.length → opened = []) (new : a ∈ opened)
    : ∃ b ∈ s.stack, Reaches edges a b := by
  obtain ⟨b, before, way⟩ := progress.up a new
  rcases mem_cons.mp before with rfl | old
  · obtain ⟨c, old, _, onward⟩ := progress.lowest.resolve_left fun own => by simp [left own] at new
    exact ⟨c, old, way.trans onward⟩
  · exact ⟨b, old, way⟩

theorem Progress.grows (after : t.Valid keys edges) (absent : key ∉ s.numbers.keys)
    : s.numbers.length < t.numbers.length := by
  obtain ⟨n, number⟩ := exists_get? progress.here
  exact Nat.lt_of_le_of_lt (progress.above key n absent number) (after.below key n number)

variable (valid : s.Valid keys edges)

include valid

theorem Progress.low_le : low ≤ s.numbers.length := by
  rcases progress.lowest with own | ⟨b, _, number, _⟩
  · exact Nat.le_of_eq own
  · exact Nat.le_of_lt (valid.below b low number)

/-- Seeing the number of an open node that edges lead to keeps what the lowest number tells: the node
was open before, or its number is not lower than that of the search.
-/
theorem Progress.low_min (member : b ∈ t.stack) (found : t.numbers.get? b = some n)
    (way : Reaches edges key b)
    : min low n = s.numbers.length
      ∨ ∃ b ∈ s.stack, s.numbers.get? b = some (min low n) ∧ Reaches edges key b := by
  rcases Nat.le_total low n with stays | lower
  · rw [Nat.min_eq_left stays]
    exact progress.lowest
  rw [Nat.min_eq_right lower]
  rw [progress.stack] at member
  rcases mem_append.mp member with new | old
  · have high := progress.above b n (progress.fresh b new) found
    exact .inl (Nat.le_antisymm (Nat.le_trans lower (progress.low_le valid)) high)
  · obtain ⟨m, before, _⟩ := valid.stack_number old
    cases (progress.kept b m before).symm.trans found
    exact .inr ⟨b, old, before, way⟩

end Progress

/-- A search from a node is under way and has followed its edges to `done`. -/
abbrev Frame (edges : String → List String) (s : Search) (key : String) (done : List String)
    (low : Nat) (t : Search) (opened : List String) : Prop :=
  Progress edges (Function.update edges key done) s t key low (opened ++ [key])

theorem mem_update_append
    : b ∈ Function.update edges key (done ++ [next]) a
      ↔ b ∈ Function.update edges key done a ∨ a = key ∧ b = next := by
  by_cases same : a = key
  · subst same
    simp
  · simp [same]

theorem Frame.start (absent : key ∉ s.numbers.keys)
    : Frame edges s key [] s.numbers.length (s.enter key) [] where
  stack := rfl
  fresh a member := mem_singleton.mp member ▸ absent
  kept a n found := by
    rw [get?_enter, if_neg ?_, found]
    rintro rfl
    exact absent (mem_keys_of_mem (mem_of_get? found))
  above a n old found := by
    rw [get?_enter, get?_eq_none_iff.mpr old] at found
    split at found <;> cases found
    exact Nat.le_refl _
  settled a there old b edge := by
    cases (mem_keys_enter.mp there).resolve_right old
    simp at edge
  here := mem_keys_enter.mpr (.inl rfl)
  down a member := mem_singleton.mp member ▸ .refl
  up a member := ⟨key, mem_cons_self, mem_singleton.mp member ▸ .refl⟩
  lowest := .inl rfl
  bound a member b edge := by
    cases mem_singleton.mp member
    simp at edge

section Frame

variable (valid : s.Valid keys edges) (frame : Frame edges s key done low t opened)

include valid frame

/-- An edge to a node that was entered before. -/
theorem Frame.seen (edge : next ∈ edges key) (found : t.numbers.get? next = some n)
    : Frame edges s key (done ++ [next]) (if t.stack.contains next then min low n else low) t
        opened where
  __ := frame
  settled a there old b followed := by
    rcases mem_update_append.mp followed with before | ⟨rfl, rfl⟩
    · exact frame.settled a there old b before
    · exact mem_keys_of_mem (mem_of_get? found)
  lowest := by
    split
    · rename_i member
      exact frame.low_min valid (contains_iff_mem.mp member) found (.single edge)
    · exact frame.lowest
  bound a member b followed old m number := by
    rcases mem_update_append.mp followed with before | ⟨rfl, rfl⟩
    · have := frame.bound a member b before old m number
      split <;> omega
    · have there : b ∈ t.stack := frame.stack ▸ mem_append_right _ old
      cases (frame.kept b m number).symm.trans found
      rw [if_pos (contains_iff_mem.mpr there)]
      exact Nat.min_le_right _ _

/-- An edge to a node that a search of its own was made for. -/
theorem Frame.searched {found : Nat} (absent : key ∉ s.numbers.keys) (inner : t.Valid keys edges)
    (edge : next ∈ edges key) (new : next ∉ t.numbers.keys)
    (reached : Progress edges edges t later next found more)
    (left : found = t.numbers.length → more = [])
    : Frame edges s key (done ++ [next]) (min low found) later (more ++ opened) := by
  have grown := Progress.grows frame inner absent
  -- Only `key` is part way through its edges: a node that is entered later follows all of its own.
  have outer {a : String} (new : a ∉ t.numbers.keys)
      : Function.update edges key (done ++ [next]) a = edges a :=
    Function.update_of_ne (fun same : a = key => new (same ▸ frame.here)) ..
  rw [Frame, append_assoc]
  constructor
  case stack => rw [reached.stack, frame.stack, append_assoc more]
  case fresh =>
    intro a member
    rcases mem_append.mp member with last | before
    · exact fun there => reached.fresh a last (frame.subset there)
    · exact frame.fresh a before
  case kept => exact fun a n number => reached.kept a n (frame.kept a n number)
  case above =>
    intro a n old number
    by_cases there : a ∈ t.numbers.keys
    · obtain ⟨m, before⟩ := exists_get? there
      cases (reached.kept a m before).symm.trans number
      exact frame.above a n old before
    · exact Nat.le_trans (Nat.le_of_lt grown) (reached.above a n there number)
  case settled =>
    intro a there old b followed
    by_cases before : a ∈ t.numbers.keys
    · rcases mem_update_append.mp followed with earlier | ⟨rfl, rfl⟩
      · exact reached.subset (frame.settled a before old b earlier)
      · exact reached.here
    · exact reached.settled a there before b (outer before ▸ followed)
  case here => exact reached.subset frame.here
  case down =>
    intro a member
    rcases mem_append.mp member with last | before
    · exact (reached.down a last).head edge
    · exact frame.down a before
  case up =>
    intro a member
    rcases mem_append.mp member with last | before
    · obtain ⟨b, standing, way⟩ := reached.leads left last
      rw [frame.stack] at standing
      rcases mem_append.mp standing with newer | old
      · obtain ⟨c, old, onward⟩ := frame.up b newer
        exact ⟨c, old, way.trans onward⟩
      · exact ⟨b, mem_cons_of_mem _ old, way⟩
    · exact frame.up a before
  case lowest =>
    rcases reached.lowest with own | ⟨b, member, number, way⟩
    · have := frame.low_le valid
      rw [Nat.min_eq_left (by omega)]
      exact frame.lowest
    · exact frame.low_min valid member number (way.head edge)
  case bound =>
    intro a member b followed old n number
    have number' := frame.kept b n number
    rcases mem_append.mp member with last | before
    · have there : b ∈ t.stack := frame.stack ▸ mem_append_right _ old
      rw [outer (reached.fresh a last)] at followed
      exact Nat.le_trans (Nat.min_le_right _ _) (reached.bound a last b followed there n number')
    · rcases mem_update_append.mp followed with earlier | ⟨rfl, rfl⟩
      · exact Nat.le_trans (Nat.min_le_left _ _) (frame.bound a before b earlier old n number)
      · exact absurd (mem_keys_of_mem (mem_of_get? number')) new

end Frame

/-! ### Leaving a node -/

section Leave

variable (valid : s.Valid keys edges) (inner : t.Valid keys edges)
  (progress : Progress edges edges s t key low (opened ++ [key])) (own : low = s.numbers.length)

include inner progress

theorem Progress.unique : ((opened ++ [key]) ++ (s.stack ++ t.components.flatten)).Nodup := by
  have := inner.unique
  rwa [progress.stack, append_assoc] at this

theorem Progress.close_eq
    : (t.close key).stack = s.stack
      ∧ (t.close key).components = t.components ++ [opened ++ [key]] := by
  have new : ∀ a ∈ opened, (a != key) = true := by
    have := (nodup_append.mp (nodup_append.mp (progress.unique inner)).1).2.2
    simpa using this
  constructor
  · simp [close, progress.stack, dropWhile_append_of_pos new]
  · simp [close, progress.stack, takeWhile_append_of_pos new]

include valid own

/-- No edge leaves the nodes opened and the components, since no edge from them leads to a node that
was open before.
-/
theorem Progress.closed
    : ∀ a ∈ (opened ++ [key]) ++ t.components.flatten, ∀ b ∈ edges a,
        b ∈ (opened ++ [key]) ++ t.components.flatten := by
  intro a member b edge
  rcases mem_append.mp member with new | complete
  · have entered := (inner.entered a).mpr (.inl (progress.stack ▸ mem_append_left _ new))
    rcases (inner.entered b).mp (progress.settled a entered (progress.fresh a new) b edge)
      with stacked | complete
    · rw [progress.stack] at stacked
      rcases mem_append.mp stacked with new | old
      · exact mem_append_left _ new
      · obtain ⟨n, number, below⟩ := valid.stack_number old
        exact absurd (progress.bound a new b edge old n number) (by omega)
    · exact mem_append_right _ complete
  · exact mem_append_right _ (inner.closed a complete b edge)

/-- The nodes opened are those that are joined with the node. -/
theorem Progress.mem_class : b ∈ opened ++ [key] ↔ Joined edges key b := by
  obtain ⟨_, others, apart⟩ := nodup_append.mp (progress.unique inner)
  have closed := progress.closed valid inner own
  constructor
  · intro member
    refine ⟨progress.down b member, ?_⟩
    obtain ⟨c, before, way⟩ := progress.up b member
    rcases mem_cons.mp before with rfl | old
    · exact way
    · have inside := mem_of_leads closed way (mem_append_left _ member)
      rcases mem_append.mp inside with new | complete
      · exact absurd rfl (apart c new c (mem_append_left _ old))
      · exact absurd rfl ((nodup_append.mp others).2.2 c old c complete)
  · intro joined
    have inside := mem_of_leads closed joined.1 (by simp)
    refine (mem_append.mp inside).resolve_right fun complete => ?_
    have back := mem_of_leads inner.closed joined.2 complete
    exact apart key (by simp) key (mem_append_right _ back) rfl

/-- The nodes opened become a component. -/
theorem Progress.valid_close : (t.close key).Valid keys edges := by
  obtain ⟨stack, components⟩ := progress.close_eq inner
  have shuffled : ((opened ++ [key]) ++ (s.stack ++ t.components.flatten)).Perm
      (s.stack ++ (t.components.flatten ++ (opened ++ [key]))) := by
    rw [← append_assoc s.stack]
    exact perm_append_comm
  have flat : (t.close key).components.flatten = t.components.flatten ++ (opened ++ [key]) := by
    simp [components]
  have unique := shuffled.nodup_iff.mp (progress.unique inner)
  constructor
  · rw [stack, flat]
    exact unique
  · intro a
    rw [stack, flat]
    refine (inner.entered a).trans ?_
    rw [progress.stack, ← mem_append, ← mem_append, append_assoc]
    exact shuffled.mem_iff
  · exact inner.distinct
  · exact inner.sub
  · exact inner.below
  · intro nodes member
    rw [components] at member
    rcases mem_append.mp member with earlier | last
    · exact inner.classes nodes earlier
    · rw [mem_singleton.mp last]
      exact ⟨key, by simp, fun b => progress.mem_class valid inner own⟩
  · intro a member b edge
    rw [flat] at member ⊢
    exact perm_append_comm.mem_iff.mp
      (progress.closed valid inner own a (perm_append_comm.mem_iff.mp member) b edge)
  · rw [components]
    refine pairwise_append.mpr ⟨inner.ordered, by simp, ?_⟩
    intro earlier member last here a inside b there edge
    rw [mem_singleton.mp here] at there
    have complete := inner.closed a (mem_flatten.mpr ⟨earlier, member, inside⟩) b edge
    exact (nodup_append.mp (nodup_append.mp unique).2.1).2.2 b complete b there rfl

end Leave

/-! ### The whole search -/

/-- The step of a search along an edge. -/
def follow (edges : String → List String) (depth : Nat)
    : Nat × Search → String → Option (Nat × Search) :=
  fun (low, s) next =>
    match s.numbers.get? next with
    | none => (connect edges depth next s).map fun (found, s) => (min low found, s)
    | some n => some (if s.stack.contains next then min low n else low, s)

theorem connect_succ (edges : String → List String) (depth : Nat) (key : String) (s : Search)
    : connect edges (depth + 1) key s
      = (((edges key).mergeSort fun a b => decide (a ≤ b)).foldlM (follow edges depth)
          (s.numbers.length, s.enter key)).bind fun (low, inner) =>
            some (low, if low = s.numbers.length then inner.close key else inner) :=
  rfl

/-- Nodes that have a number are nodes, so that a node without one leaves a number to give. -/
theorem Valid.length_lt (valid : s.Valid keys edges) (node : key ∈ keys)
    (absent : key ∉ s.numbers.keys)
    : s.numbers.length < keys.length := by
  have bound := ((nodup_cons.mpr ⟨absent, valid.distinct⟩).subperm
    (cons_subset.mpr ⟨node, valid.sub⟩)).length_le
  simpa [Table.keys, Nat.succ_le_iff] using bound

/-- A search from a node that was not entered ends, as long as its depth makes up for the nodes that
were not entered. Witness: induction on the depth, and for each node on its edges.
-/
theorem exists_connect (targets : ∀ a, ∀ b ∈ edges a, b ∈ keys) (depth : Nat)
    (valid : s.Valid keys edges) (node : key ∈ keys) (absent : key ∉ s.numbers.keys)
    (enough : keys.length ≤ depth + s.numbers.length)
    : ∃ low later opened, connect edges depth key s = some (low, later)
        ∧ later.Valid keys edges ∧ Progress edges edges s later key low opened
        ∧ (low = s.numbers.length → opened = []) := by
  induction depth generalizing key s with
  | zero =>
    have := valid.length_lt node absent
    omega
  | succ depth ih =>
    -- The edges are followed one by one, and the frame holds between any two of them.
    have through (rest done : List String) (low : Nat) (t : Search) (opened : List String)
        (sub : rest ⊆ edges key) (inner : t.Valid keys edges)
        (frame : Frame edges s key done low t opened)
        : ∃ last later opened, rest.foldlM (follow edges depth) (low, t) = some (last, later)
            ∧ later.Valid keys edges ∧ Frame edges s key (done ++ rest) last later opened := by
      induction rest generalizing done low t opened with
      | nil => exact ⟨low, t, opened, rfl, inner, by simpa using frame⟩
      | cons next rest tail =>
        obtain ⟨edge, sub⟩ := cons_subset.mp sub
        rw [append_cons]
        simp only [foldlM_cons]
        cases found : t.numbers.get? next with
        | none =>
          have new := get?_eq_none_iff.mp found
          have grown := Progress.grows frame inner absent
          obtain ⟨low', later, more, connected, after, reached, left⟩ :=
            ih inner (targets key next edge) new (by omega)
          simpa [follow, found, connected] using
            tail _ _ _ _ sub after (frame.searched valid absent inner edge new reached left)
        | some n => simpa [follow, found] using tail _ _ _ _ sub inner (frame.seen valid edge found)
    obtain ⟨low, t, opened, followed, inner, frame⟩ :=
      through ((edges key).mergeSort fun a b => decide (a ≤ b)) [] _ _ []
        (fun b => mem_mergeSort.mp) (valid.enter node absent) (.start absent)
    -- With no edge left, what the frame says of the edges behind it holds of all.
    have all (a : String) : edges a ⊆ Function.update edges key
        ([] ++ (edges key).mergeSort fun a b => decide (a ≤ b)) a := by
      by_cases same : a = key
      · subst same
        simp [subset_def]
      · simp [same]
    have progress : Progress edges edges s t key low (opened ++ [key]) :=
      { frame with
        settled := fun a there old b edge => frame.settled a there old b (all a edge)
        bound := fun a member b edge => frame.bound a member b (all a edge) }
    rw [connect_succ, followed]
    by_cases own : low = s.numbers.length
    · refine ⟨low, t.close key, [], by simp [own], progress.valid_close valid inner own, ?_,
        fun _ => rfl⟩
      exact { progress with
        stack := (progress.close_eq inner).1
        fresh := nofun
        down := nofun
        up := nofun
        bound := nofun }
    · exact ⟨low, t, opened ++ [key], by simp [own], inner, progress, (absurd · own)⟩

/-- The search from all nodes in turn leaves none open and enters them all. -/
theorem exists_search (targets : ∀ a, ∀ b ∈ edges a, b ∈ keys)
    : ∃ s : Search, strongComponents keys edges = some s.components
        ∧ s.Valid keys edges ∧ s.stack = [] ∧ keys ⊆ s.numbers.keys := by
  let visit (s : Search) (key : String) : Option Search :=
    if s.numbers.contains key then some s
    else (connect edges keys.length key s).map (·.2)
  have through (rest : List String) (sub : rest ⊆ keys) (s : Search) (valid : s.Valid keys edges)
      (idle : s.stack = [])
      : ∃ later : Search, rest.foldlM visit s = some later ∧ later.Valid keys edges
          ∧ later.stack = [] ∧ s.numbers.keys ⊆ later.numbers.keys
          ∧ rest ⊆ later.numbers.keys := by
    induction rest generalizing s with
    | nil => exact ⟨s, rfl, valid, idle, fun _ => id, nil_subset _⟩
    | cons key rest tail =>
      obtain ⟨node, sub⟩ := cons_subset.mp sub
      obtain ⟨t, visited, valid, idle, kept, here⟩ : ∃ t : Search, visit s key = some t
          ∧ t.Valid keys edges ∧ t.stack = [] ∧ s.numbers.keys ⊆ t.numbers.keys
          ∧ key ∈ t.numbers.keys := by
        by_cases there : key ∈ s.numbers.keys
        · exact ⟨s, if_pos (Table.contains_iff.mpr there), valid, idle, fun _ => id, there⟩
        · obtain ⟨low, t, opened, connected, valid, reached, left⟩ :=
            exists_connect targets keys.length valid node there (by omega)
          refine ⟨t, ?_, valid, ?_, reached.subset, reached.here⟩
          · rw [show visit s key = (connect edges keys.length key s).map (·.2) from
              if_neg (mt Table.contains_iff.mp there), connected]
            rfl
          · -- An open node would lead to one that was open before.
            rw [reached.stack, idle, append_nil]
            refine eq_nil_iff_forall_not_mem.mpr fun a member => ?_
            obtain ⟨b, old, _⟩ := reached.leads left member
            simp [idle] at old
      obtain ⟨later, followed, valid, idle, kept', there⟩ := tail sub t valid idle
      refine ⟨later, ?_, valid, idle, Subset.trans kept kept', cons_subset.mpr ⟨kept' here, there⟩⟩
      simpa [foldlM_cons, visited] using followed
  obtain ⟨later, followed, valid, idle, _, there⟩ := through keys (fun _ => id) {}
    ⟨by simp, by simp [Table.keys], by simp [Table.keys], by simp [Table.keys],
      by simp [get?], by simp, by simp, by simp⟩ rfl
  refine ⟨later, ?_, valid, idle, there⟩
  change (keys.foldlM visit {}).map (·.components) = _
  rw [followed]
  rfl

end Search

/-- Lists of nodes that are the strongly connected components of a graph, each after those that its
edges lead to.
-/
structure AreComponents (keys : List String) (edges : String → List String)
    (found : List (List String)) : Prop where
  nodes : found.flatten.Perm keys
  classes : ∀ nodes ∈ found, ∃ a ∈ nodes, ∀ b, b ∈ nodes ↔ Joined edges a b
  ordered : found.Pairwise fun earlier later => ∀ a ∈ earlier, ∀ b ∈ later, b ∉ edges a

theorem exists_components (unique : keys.Nodup) (targets : ∀ a, ∀ b ∈ edges a, b ∈ keys)
    : ∃ found, strongComponents keys edges = some found ∧ AreComponents keys edges found := by
  obtain ⟨s, found, valid, idle, there⟩ := Search.exists_search targets
  have once := valid.unique
  have entered := valid.entered
  simp only [idle, nil_append, not_mem_nil, false_or] at once entered
  refine ⟨s.components, found, ?_, valid.classes, valid.ordered⟩
  refine (perm_ext_iff_of_nodup once unique).mpr fun key => ?_
  rw [← entered]
  exact ⟨fun member => valid.sub member, fun member => there member⟩

/-- Nodes are in one component exactly if they are joined. -/
theorem AreComponents.together {found : List (List String)} (h : AreComponents keys edges found)
    {a b : String} (node : a ∈ keys)
    : (∃ nodes ∈ found, a ∈ nodes ∧ b ∈ nodes) ↔ Joined edges a b := by
  constructor
  · rintro ⟨nodes, member, first, second⟩
    obtain ⟨c, _, same⟩ := h.classes nodes member
    obtain ⟨down, up⟩ := (same a).mp first
    obtain ⟨down', up'⟩ := (same b).mp second
    exact ⟨up.trans down', up'.trans down⟩
  · rintro ⟨there, back⟩
    obtain ⟨nodes, member, first⟩ := mem_flatten.mp (h.nodes.mem_iff.mpr node)
    obtain ⟨c, _, same⟩ := h.classes nodes member
    obtain ⟨down, up⟩ := (same a).mp first
    exact ⟨nodes, member, first, (same b).mpr ⟨down.trans there, back.trans up⟩⟩

/-- For all nodes, each listed once, and edges among them, the search ends. Its lists have each node
in exactly one place; two nodes are in the same list exactly if edges lead from each to the other;
and no edge leads from a node of a list to a node of a later one.
-/
theorem strongComponents_exact (keys : List String) (edges : String → List String)
    (unique : keys.Nodup) (targets : ∀ a, ∀ b ∈ edges a, b ∈ keys)
    : ∃ found, strongComponents keys edges = some found
        ∧ found.flatten.Perm keys
        ∧ [] ∉ found
        ∧ (∀ a ∈ keys, ∀ b ∈ keys,
            (∃ nodes ∈ found, a ∈ nodes ∧ b ∈ nodes)
              ↔ ReflTransGen (Leads edges) a b ∧ ReflTransGen (Leads edges) b a)
        ∧ found.Pairwise fun earlier later => ∀ a ∈ earlier, ∀ b ∈ later, ¬Leads edges a b := by
  obtain ⟨found, result, h⟩ := exists_components unique targets
  refine ⟨found, result, h.nodes, fun empty => ?_, fun a node b _ => h.together node, h.ordered⟩
  obtain ⟨a, member, _⟩ := h.classes [] empty
  cases member

/-- Nodes `a` and `b` on a cycle, and `c` that depends on it. -/
theorem strongComponents_cycle
    : let edges (key : String) : List String :=
        if key = "a" then ["b"] else if key = "b" then ["a"] else if key = "c" then ["b"] else []
      strongComponents ["c", "a", "b"] edges = some [["a", "b"], ["c"]]
      ∧ ∃ found, strongComponents ["c", "a", "b"] edges = some found
        ∧ found.flatten.Perm ["c", "a", "b"] := by
  intro edges
  refine ⟨by decide +kernel, ?_⟩
  obtain ⟨found, result, nodes, _⟩ := strongComponents_exact ["c", "a", "b"] edges (by decide) (by
    intro a b edge
    simp only [edges] at edge
    split_ifs at edge <;> simp_all)
  exact ⟨found, result, nodes⟩

end Fxml.Graph
