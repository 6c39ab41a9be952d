import Mathlib.Data.List.Chain
import Mathlib.Order.Lattice.Nat
import Fxml.Proofs.Graph.WellFormed

/-! The search in breadth finds a shortest cycle through a node. After each round the nodes seen are
those that a way of at most so many edges leads to, so a way back is found in the first round that
allows one.
-/

open List

namespace Fxml.Graph

open Relation

variable {g : Graph} {inside component path seen : List String} {n rounds : Nat}
  {a start key b c : String} {paths : List (List String)}

/-! ### Ways by their length -/

/-- A way of so many edges, all of whose nodes but the first stand in a list. -/
inductive Way (g : Graph) (inside : List String) : Nat → String → String → Prop
  | here (a : String) : Way g inside 0 a a
  | step {n : Nat} {a b c : String} (way : Way g inside n a b) (edge : g.Edge b c)
    (member : c ∈ inside)
    : Way g inside (n + 1) a c

theorem Way.append {m : Nat} (first : g.Way inside m a b) (second : g.Way inside n b c)
    : g.Way inside (m + n) a c := by
  induction second with
  | here => exact first
  | step _ edge member ih => exact .step (ih first) edge member

/-- A way can be cut after any number of its edges. -/
theorem Way.split (m n : Nat) (way : g.Way inside (m + n) a c)
    : ∃ b, g.Way inside m a b ∧ g.Way inside n b c := by
  induction n generalizing c with
  | zero => exact ⟨c, way, .here c⟩
  | succ n ih =>
    cases way with
    | step way edge member =>
      obtain ⟨b, first, second⟩ := ih way
      exact ⟨b, first, .step second edge member⟩

theorem Way.target_mem (way : g.Way inside n a b) (positive : 0 < n) : b ∈ inside := by
  cases way with
  | here => simp at positive
  | step _ _ member => exact member

/-! ### One round -/

/-- Where a path can go on to. -/
def onward (g : Graph) (start : String) (component path : List String) : List String :=
  g.byPriority ((g.dependencies (path.head?.getD start)).filter component.contains)

theorem mem_onward
    : key ∈ g.onward start component path
      ↔ g.Edge (path.head?.getD start) key ∧ key ∈ component := by
  simp [onward, byPriority, Edge]

/-- What candidates for new paths add to the nodes seen and to the paths: each new end once. -/
structure Extended (candidates : List (List String)) (seen : List String)
    (next : List (List String)) (seen' : List String) (next' : List (List String))
    : Prop where
  seen_iff : ∀ key, key ∈ seen' ↔ key ∈ seen ∨ ∃ path ∈ candidates, path.head? = some key
  kept : next ⊆ next'
  new : ∀ path ∈ next', path ∈ next ∨ path ∈ candidates ∧ ∀ key, path.head? = some key → key ∉ seen
  led
    : ∀ path ∈ candidates,
        ∀ key, path.head? = some key → key ∉ seen → ∃ other ∈ next', other.head? = some key

theorem Extended.nil (seen : List String) (next : List (List String))
    : Extended [] seen next seen next :=
  ⟨by simp, Subset.refl _, fun _ member => .inl member, by simp⟩

theorem Extended.append {more candidates : List (List String)} {seen' seen'' : List String}
    {next next' next'' : List (List String)} (first : Extended candidates seen next seen' next')
    (second : Extended more seen' next' seen'' next'')
    : Extended (candidates ++ more) seen next seen'' next'' := by
  constructor
  · intro key
    rw [second.seen_iff, first.seen_iff, or_assoc]
    simp only [mem_append, or_and_right, exists_or]
  · exact fun _ member => second.kept (first.kept member)
  · intro path member
    rcases second.new path member with old | ⟨candidate, unseen⟩
    · rcases first.new path old with older | ⟨candidate, unseen⟩
      · exact .inl older
      · exact .inr ⟨mem_append_left _ candidate, unseen⟩
    · refine .inr ⟨mem_append_right _ candidate, fun key found seen => ?_⟩
      exact unseen key found ((first.seen_iff key).mpr (.inl seen))
  · intro path member key found unseen
    by_cases before : ∃ other ∈ candidates, other.head? = some key
    · obtain ⟨other, candidate, ends⟩ := before
      obtain ⟨path', there, same⟩ := first.led other candidate key ends unseen
      exact ⟨path', second.kept there, same⟩
    · rcases mem_append.mp member with candidate | candidate
      · exact absurd ⟨path, candidate, found⟩ before
      · refine second.led path candidate key found ?_
        rw [first.seen_iff]
        exact not_or.mpr ⟨unseen, before⟩

/-- A path to a node seen already adds nothing. -/
theorem Extended.skip (next : List (List String)) (h : key ∈ seen)
    : Extended [key :: path] seen next seen next := by
  constructor
  · simp only [mem_singleton, exists_eq_left, head?_cons, Option.some.injEq]
    exact fun other => ⟨.inl, fun found => found.elim id fun same => same ▸ h⟩
  · exact Subset.refl _
  · exact fun _ member => .inl member
  · simp only [mem_singleton, forall_eq, head?_cons, Option.some.injEq]
    exact fun other same unseen => absurd (same ▸ h) unseen

/-- A path to a new node adds the node and the path. -/
theorem Extended.take (next : List (List String)) (h : key ∉ seen)
    : Extended [key :: path] seen next (key :: seen) (next ++ [key :: path]) := by
  constructor
  · intro other
    rw [mem_cons, or_comm, eq_comm]
    simp only [mem_singleton, exists_eq_left, head?_cons, Option.some.injEq]
  · exact subset_append_left _ _
  · intro other member
    refine (mem_append.mp member).imp_right fun new => ⟨new, ?_⟩
    rw [mem_singleton.mp new]
    simpa using h
  · intro other member found ends _
    exact ⟨other, mem_append_right _ member, ends⟩

/-- A path goes on to all nodes given, unless one of them is the start. -/
theorem extendPath_spec (start : String) (path keys seen : List String) (next : List (List String))
    : start ∈ keys ∧ extendPath start path keys (.paths seen next) = .cycle path.reverse
      ∨ start ∉ keys
        ∧ ∃ seen' next',
            extendPath start path keys (.paths seen next) = .paths seen' next'
            ∧ Extended (keys.map (· :: path)) seen next seen' next' := by
  induction keys generalizing seen next with
  | nil => exact .inr ⟨by simp, seen, next, rfl, .nil seen next⟩
  | cons key rest ih =>
    unfold extendPath
    by_cases back : key = start
    · exact .inl ⟨by simp [back], if_pos back⟩
    rw [if_neg back]
    by_cases known : key ∈ seen
    · rw [if_pos (by simpa using known)]
      rcases ih seen next with ⟨member, found⟩ | ⟨absent, seen', next', found, extended⟩
      · exact .inl ⟨by simp [member], found⟩
      · refine .inr ⟨by simp [Ne.symm back, absent], seen', next', found, ?_⟩
        exact (Extended.skip next known).append extended
    · rw [if_neg (by simpa using known)]
      rcases ih (key :: seen) (next ++ [key :: path]) with
        ⟨member, found⟩ | ⟨absent, seen', next', found, extended⟩
      · exact .inl ⟨by simp [member], found⟩
      · refine .inr ⟨by simp [Ne.symm back, absent], seen', next', found, ?_⟩
        exact (Extended.take next known).append extended

theorem extendPath_of_cycle (start : String) (path keys cycle : List String)
    : extendPath start path keys (.cycle cycle) = .cycle cycle := by
  cases keys <;> rfl

theorem extendAll_cons (g : Graph) (start : String) (component path : List String)
    (rest : List (List String)) (found : Found)
    : g.extendAll start component (path :: rest) found
      = g.extendAll start component rest
          (extendPath start path (g.onward start component path) found) :=
  rfl

theorem extendAll_of_cycle (g : Graph) (start : String) (component cycle : List String)
    (paths : List (List String))
    : g.extendAll start component paths (.cycle cycle) = .cycle cycle := by
  induction paths with
  | nil => rfl
  | cons path rest ih =>
    rw [extendAll_cons, extendPath_of_cycle]
    exact ih

/-- The paths that a round can make. -/
def longer (g : Graph) (start : String) (component : List String) (paths : List (List String))
    : List (List String) :=
  paths.flatMap fun path => (g.onward start component path).map (· :: path)

/-- A round ends at the first path that can go back to the start, or makes every path longer. -/
theorem extendAll_spec (g : Graph) (start : String) (component seen : List String)
    (paths next : List (List String))
    : (∃ path ∈ paths,
        start ∈ g.onward start component path
        ∧ g.extendAll start component paths (.paths seen next) = .cycle path.reverse)
      ∨ (∀ path ∈ paths, start ∉ g.onward start component path)
        ∧ ∃ seen' next',
            g.extendAll start component paths (.paths seen next) = .paths seen' next'
            ∧ Extended (g.longer start component paths) seen next seen' next' := by
  induction paths generalizing seen next with
  | nil => exact .inr ⟨by simp, seen, next, rfl, .nil seen next⟩
  | cons path rest ih =>
    rw [extendAll_cons]
    rcases extendPath_spec start path (g.onward start component path) seen next with
      ⟨member, found⟩ | ⟨absent, seen', next', found, extended⟩
    · refine .inl ⟨path, by simp, member, ?_⟩
      rw [found, extendAll_of_cycle]
    · rw [found]
      rcases ih seen' next' with
        ⟨other, there, member, ends⟩ | ⟨none_back, seen'', next'', ends, extended'⟩
      · exact .inl ⟨other, by simp [there], member, ends⟩
      · refine .inr ⟨?_, seen'', next'', ends, extended.append extended'⟩
        intro other there
        rcases mem_cons.mp there with rfl | later
        · exact absent
        · exact none_back other later

/-! ### The rounds as layers of equal distance -/

/-- A path, its end first, that leads from the start to its end along nodes seen, each once. -/
structure Trail (g : Graph) (start : String) (component seen : List String) (rounds : Nat)
    (path : List String)
    : Prop where
  length : path.length = rounds + 1
  unique : path.Nodup
  sub : path ⊆ start :: seen
  linked : path.IsChain fun b a => g.Edge a b
  first : path.getLast? = some start
  way : ∃ key, path.head? = some key ∧ g.Way component rounds start key

/-- What the search knows after so many rounds without a way back. -/
structure Layer (g : Graph) (start : String) (component : List String) (rounds : Nat)
    (seen : List String) (paths : List (List String))
    : Prop where
  trails : ∀ path ∈ paths, g.Trail start component seen rounds path
  seen_iff : ∀ key, key ∈ seen ↔ ∃ n, 0 < n ∧ n ≤ rounds ∧ g.Way component n start key
  front
    : ∀ key,
        g.Way component rounds start key
        → (∀ n < rounds, ¬g.Way component n start key)
        → ∃ path ∈ paths, path.head? = some key
  noReturn : ∀ n, 0 < n → n ≤ rounds → ¬g.Way component n start start

theorem Layer.initial (g : Graph) (start : String) (component : List String)
    : g.Layer start component 0 [] [[start]] := by
  constructor
  · intro path member
    rw [mem_singleton.mp member]
    exact ⟨by simp, by simp, by simp, .singleton start, rfl, start, rfl, .here start⟩
  · intro key
    simp only [not_mem_nil, false_iff, not_exists, not_and]
    intro n positive bound
    omega
  · intro key way _
    cases way with
    | here => exact ⟨[start], by simp, rfl⟩
  · intro n positive bound
    omega

/-- A node at the end of so many edges is seen within these rounds, or ends a path of this round.
-/
theorem Layer.seen_or_front (layer : g.Layer start component rounds seen paths)
    (way : g.Way component rounds start key)
    : (∃ n < rounds, g.Way component n start key) ∨ ∃ path ∈ paths, path.head? = some key := by
  by_cases shorter : ∃ n < rounds, g.Way component n start key
  · exact .inl shorter
  · exact .inr (layer.front key way fun n less found => shorter ⟨n, less, found⟩)

/-- A round that finds no way back makes the next layer. -/
theorem Layer.next {seen seen' : List String} {paths next : List (List String)}
    (layer : g.Layer start component rounds seen paths)
    (away : ∀ path ∈ paths, start ∉ g.onward start component path)
    (extended : Extended (g.longer start component paths) seen [] seen' next)
    : g.Layer start component (rounds + 1) seen' next := by
  have candidate {path : List String} (h : path ∈ g.longer start component paths)
      : ∃ old ∈ paths, ∃ key ∈ g.onward start component old, path = key :: old := by
    obtain ⟨old, member, found⟩ := mem_flatMap.mp h
    obtain ⟨key, there, same⟩ := mem_map.mp found
    exact ⟨old, member, key, there, same.symm⟩
  have reached {old : List String} (member : old ∈ paths) {key : String}
      (h : key ∈ g.onward start component old)
      : g.Way component (rounds + 1) start key := by
    obtain ⟨last, ends, way⟩ := (layer.trails old member).way
    obtain ⟨edge, inside⟩ := mem_onward.mp h
    rw [ends] at edge
    exact way.step edge inside
  -- One edge more than a way of this length: seen before, or offered by a path of this layer.
  have further {key : String} (way : g.Way component (rounds + 1) start key)
      : (∃ n, 0 < n ∧ n ≤ rounds ∧ g.Way component n start key)
        ∨ ∃ old ∈ paths, key ∈ g.onward start component old := by
    cases way with
    | step way edge inside =>
      rcases layer.seen_or_front way with ⟨n, less, found⟩ | ⟨old, member, ends⟩
      · exact .inl ⟨n + 1, by omega, by omega, found.step edge inside⟩
      · exact .inr ⟨old, member, mem_onward.mpr ⟨by simpa [ends] using edge, inside⟩⟩
  have offered {old : List String} (member : old ∈ paths) {key : String}
      (h : key ∈ g.onward start component old)
      : key :: old ∈ g.longer start component paths :=
    mem_flatMap.mpr ⟨old, member, mem_map_of_mem h⟩
  constructor
  · intro path member
    rcases extended.new path member with none | ⟨new, unseen⟩
    · simp at none
    obtain ⟨old, there, key, onward, rfl⟩ := candidate new
    have trail := layer.trails old there
    have fresh : key ∉ old := by
      intro inside
      rcases mem_cons.mp (trail.sub inside) with same | known
      · exact away old there (same ▸ onward)
      · exact unseen key rfl known
    refine {
      length := by simp [trail.length]
      unique := nodup_cons.mpr ⟨fresh, trail.unique⟩
      sub := ?_
      linked := ?_
      first := ?_
      way := ⟨key, rfl, reached there onward⟩
    }
    · intro other inside
      rcases mem_cons.mp inside with rfl | inside
      · exact mem_cons_of_mem _ ((extended.seen_iff other).mpr
          (.inr ⟨_, offered there onward, rfl⟩))
      · rcases mem_cons.mp (trail.sub inside) with rfl | known
        · simp
        · exact mem_cons_of_mem _ ((extended.seen_iff other).mpr (.inl known))
    · refine trail.linked.cons fun last ends => ?_
      have edge := (mem_onward.mp onward).1
      rw [Option.mem_def.mp ends] at edge
      exact edge
    · obtain ⟨last, ends, _⟩ := trail.way
      cases old with
      | nil => simp at ends
      | cons head tail => simpa using trail.first
  · intro key
    rw [extended.seen_iff, layer.seen_iff]
    constructor
    · rintro (⟨n, positive, bound, way⟩ | ⟨path, new, ends⟩)
      · exact ⟨n, positive, by omega, way⟩
      · obtain ⟨old, there, other, onward, rfl⟩ := candidate new
        obtain rfl : other = key := by simpa using ends
        exact ⟨rounds + 1, by omega, le_refl _, reached there onward⟩
    · rintro ⟨n, positive, bound, way⟩
      rcases Nat.lt_or_ge rounds n with last | earlier
      · obtain rfl : n = rounds + 1 := by omega
        exact (further way).imp_right fun ⟨old, member, onward⟩ =>
          ⟨key :: old, offered member onward, rfl⟩
      · exact .inl ⟨n, positive, earlier, way⟩
  · intro key way shortest
    have unseen : key ∉ seen := by
      rw [layer.seen_iff]
      rintro ⟨n, _, bound, shorter⟩
      exact shortest n (by omega) shorter
    rcases further way with ⟨n, _, bound, shorter⟩ | ⟨old, member, onward⟩
    · exact absurd shorter (shortest n (by omega))
    · exact extended.led _ (offered member onward) key rfl unseen
  · intro n positive bound way
    rcases Nat.lt_or_ge rounds n with last | earlier
    · obtain rfl : n = rounds + 1 := by omega
      rcases further way with ⟨m, positive, bound, shorter⟩ | ⟨old, member, onward⟩
      · exact layer.noReturn m positive bound shorter
      · exact away old member onward
    · exact layer.noReturn n positive earlier way

/-! ### The result of the search -/

/-- A cycle through a node that no way back from that node inside a list of nodes is shorter than.
-/
structure ShortestCycle (g : Graph) (start : String) (component cycle : List String) : Prop where
  head : cycle.head? = some start
  unique : cycle.Nodup
  sub : cycle ⊆ component
  linked : (cycle ++ [start]).IsChain g.Edge
  least : ∀ n, 0 < n → g.Way component n start start → cycle.length ≤ n

theorem Layer.shortestCycle (layer : g.Layer start component rounds seen paths)
    (inside : start ∈ component) (member : path ∈ paths)
    (back : start ∈ g.onward start component path)
    : g.ShortestCycle start component path.reverse := by
  have trail := layer.trails path member
  obtain ⟨last, ends, _⟩ := trail.way
  have edge := (mem_onward.mp back).1
  rw [ends, Option.getD_some] at edge
  refine {
    head := by simpa using trail.first
    unique := nodup_reverse.mpr trail.unique
    sub := ?_
    linked := ?_
    least := ?_
  }
  · intro key there
    rcases mem_cons.mp (trail.sub (mem_reverse.mp there)) with rfl | known
    · exact inside
    · obtain ⟨n, positive, _, way⟩ := (layer.seen_iff key).mp known
      exact way.target_mem positive
  · refine (isChain_reverse.mpr trail.linked).append (.singleton start) ?_
    intro a ha b hb
    simp_all
  · intro n positive way
    rw [length_reverse, trail.length]
    by_contra shorter
    exact layer.noReturn n positive (by omega) way

/-- The layers reach a way back before the rounds run out. Witness: cut a shortest way back after
as many edges as there were rounds; the path at hand to that place has no repetition, so it is not
longer than the component.
-/
theorem Layer.rounds_le (layer : g.Layer start component rounds seen paths)
    (inside : start ∈ component) (positive : 0 < n) (way : g.Way component n start start)
    : rounds < component.length := by
  classical
  let back (m : Nat) : Prop := 0 < m ∧ g.Way component m start start
  have exists_back : ∃ m, back m := ⟨n, positive, way⟩
  obtain ⟨shortPositive, short⟩ := Nat.find_spec exists_back
  have least {m : Nat} (h : back m) : Nat.find exists_back ≤ m := Nat.find_min' exists_back h
  have more : rounds < Nat.find exists_back := by
    by_contra fewer
    exact layer.noReturn _ shortPositive (by omega) short
  obtain ⟨rest, whole⟩ := Nat.exists_eq_add_of_le more.le
  rw [whole] at short
  obtain ⟨key, first, second⟩ := short.split
  obtain ⟨path, member, ends⟩ := layer.front key first fun m less shorter => by
    have := least ⟨by omega, shorter.append second⟩
    omega
  have trail := layer.trails path member
  have bound : path.length ≤ component.length := by
    refine (trail.unique.subperm fun other there => ?_).length_le
    rcases mem_cons.mp (trail.sub there) with rfl | known
    · exact inside
    · obtain ⟨m, positive, _, way⟩ := (layer.seen_iff other).mp known
      exact way.target_mem positive
  have := trail.length
  omega

theorem Layer.searchCycle (left : Nat) (layer : g.Layer start component rounds seen paths)
    (inside : start ∈ component) (enough : component.length < rounds + left) (positive : 0 < n)
    (way : g.Way component n start start)
    : g.ShortestCycle start component (g.searchCycle start component left seen paths) := by
  induction left generalizing rounds seen paths with
  | zero =>
    have := layer.rounds_le inside positive way
    omega
  | succ left ih =>
    unfold Graph.searchCycle
    rcases extendAll_spec g start component seen paths [] with
      ⟨path, member, back, found⟩ | ⟨away, seen', next, found, extended⟩
    · rw [found]
      exact layer.shortestCycle inside member back
    · rw [found]
      exact ih (layer.next away extended) (by omega)

/-- The search finds a shortest cycle through a node that a way inside the component leads back to.
-/
theorem shortestCycle_cycleFrom (inside : start ∈ component) (positive : 0 < n)
    (way : g.Way component n start start)
    : g.ShortestCycle start component (g.cycleFrom start component) :=
  (Layer.initial g start component).searchCycle _ inside (by omega) positive way

end Fxml.Graph
