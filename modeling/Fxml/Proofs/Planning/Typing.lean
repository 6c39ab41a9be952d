import Mathlib.Data.List.Perm.Subperm
import Fxml.Proofs.Planning.Invariant

/-! The types of nodes in a run without errors. Every object, constant and included document has a
type, and a copy has one exactly when it is grounded, as no chain of different copies is longer than
the ids are many.
-/

open List

namespace Fxml.Planning

open Relation

variable {node first : Node} {busy : List Node} {c : Context} {s t : State} {underway : List String}
  {tag source id : String} {pos : Position} {found : Option String} {entry : Entry} {depth : Nat}

/-! ### Tags, objects, constants and included documents -/

theorem resolveTag_ends
    : Ends c (resolveTag tag pos) s (Given fun (name, d) t =>
          t = s
          ∧ c.types.resolveType tag c.document.imports = .ok (some name)
          ∧ c.types.describe name = some d) := by
  unfold resolveTag
  rw [ends_read_bind]
  split
  · exact ends_refuse rfl
  · rename_i found resolved
    split
    · rename_i described result
      obtain ⟨name, rfl, found⟩ := Option.bind_eq_some_iff.mp result
      obtain ⟨d, there, rfl⟩ := Option.map_eq_some_iff.mp found
      exact ends_pure.mpr fun _ => ⟨_, rfl, rfl, resolved, there⟩
    · exact ends_refuse rfl

theorem objectType_ends {origin : Origin}
    : Ends c (objectType origin tag pos) s (Given fun type t =>
          t = s
          ∧ (∃ name, c.types.resolveType tag c.document.imports = .ok (some name))
          ∧ (c.types.describe type).isSome) := by
  unfold objectType
  refine resolveTag_ends.bindGiven (fun _ => ends_pure_of_not_clean) ?_
  rintro ⟨type, d⟩ t after
  have own : Ends c (pure (some type)) t (Given fun type t =>
      t = s
      ∧ (∃ name, c.types.resolveType tag c.document.imports = .ok (some name))
      ∧ (c.types.describe type).isSome) := by
    refine ends_pure.mpr fun clean => ?_
    obtain ⟨_, rfl, resolved, described⟩ := after clean
    exact ⟨type, rfl, rfl, ⟨type, resolved⟩, by simp [described]⟩
  cases origin with
  | factory method =>
    dsimp only
    split
    · exact ends_refuse rfl
    · rename_i produced _
      rw [ends_describe_bind]
      split
      · rename_i known
        refine ends_pure.mpr fun clean => ?_
        obtain ⟨_, rfl, resolved, _⟩ := after clean
        exact ⟨produced, rfl, rfl, ⟨type, resolved⟩, (Bool.and_eq_true_iff.mp known).2⟩
      · exact own
  | construct | value | root => exact own

theorem constantType_ends {name : String}
    : Ends c (constantType tag name pos) s (Given fun _ t =>
          t = s ∧ ∃ owner, c.types.resolveType tag c.document.imports = .ok (some owner)) := by
  unfold constantType
  refine resolveTag_ends.bindGiven (fun _ => ends_pure_of_not_clean) ?_
  rintro ⟨owner, d⟩ t after
  have found (type : String) : Ends c (pure (some type)) t (Given fun _ t =>
          t = s ∧ ∃ owner, c.types.resolveType tag c.document.imports = .ok (some owner)) := by
    refine ends_pure.mpr fun clean => ?_
    obtain ⟨_, rfl, resolved, _⟩ := after clean
    exact ⟨type, rfl, rfl, owner, resolved⟩
  dsimp only
  split
  · exact found _
  · split
    · exact found _
    · exact ends_refuse rfl

/-- Only what is noted about types and included documents differs, and the reports. -/
def Retyped (s t : State) : Prop :=
  ∃ ds types includes, t = { s with diagnostics := ds, types := types, includes := includes }

theorem Retyped.refl (s : State) : Retyped s s := ⟨_, _, _, rfl⟩

theorem Retyped.trans {u : State} (first : Retyped s t) (second : Retyped t u) : Retyped s u := by
  obtain ⟨ds, types, includes, rfl⟩ := first
  obtain ⟨ds', types', includes', rfl⟩ := second
  exact ⟨ds', types', includes', rfl⟩

/-- The document behind a node is looked up once and noted. -/
theorem includeTarget_found : Ends c (includeTarget node source) s fun found t =>
        s.includes.lookup node.order = some found ∧ t = s
        ∨ s.includes.lookup node.order = none ∧ found.isSome = true
          ∧ t = { s with includes := (node.order, found) :: s.includes } := by
  unfold includeTarget
  rw [ends_get_bind]
  split
  · rename_i target found
    exact ends_pure.mpr fun _ => .inl ⟨found, rfl⟩
  rename_i unknown
  have noted {t : State} (target : Option IncludeTarget) (h : t.Clean → t = s ∧ target.isSome)
      : Ends c
          (do
            modify fun s => { s with includes := (node.order, target) :: s.includes }
            pure target)
          t fun found u =>
            s.includes.lookup node.order = some found ∧ u = s
            ∨ s.includes.lookup node.order = none ∧ found.isSome = true
              ∧ u = { s with includes := (node.order, found) :: s.includes } := by
    rw [ends_modify_bind rfl]
    refine ends_pure.mpr fun clean => ?_
    obtain ⟨rfl, found⟩ := h clean
    exact .inr ⟨unknown, found, rfl⟩
  rw [ends_read_bind]
  split
  · refine ends_error_bind rfl fun t bad => ?_
    rw [pure_bind]
    exact noted none fun clean => (bad clean).elim
  · rename_i load _
    have answered : Ends c (liftM (load (Path.resolve c.document.path source))) s
        fun _ t => t = s :=
      .lift fun _ _ => rfl
    refine answered.bind fun answer t after => ?_
    cases answer with
    | ok target =>
      rw [pure_bind]
      exact noted (some target) fun clean => ⟨(after clean).2, rfl⟩
    | error fault =>
      refine ends_error_bind rfl fun t bad => ?_
      rw [pure_bind]
      exact noted none fun clean => (bad clean).elim

theorem includeTarget_ends (included : s.Clean → Included s)
    : Ends c (includeTarget node source) s
        (Given fun _ t => Included t ∧ t.types = s.types ∧ Retyped s t) := by
  refine includeTarget_found.imp ?_
  rintro found t _ start (⟨noted, rfl⟩ | ⟨_, given, rfl⟩)
  · obtain ⟨value, rfl⟩ := Option.isSome_iff_exists.mp (included start _ _ noted)
    exact ⟨value, rfl, included start, rfl, .refl t⟩
  · obtain ⟨value, rfl⟩ := Option.isSome_iff_exists.mp given
    refine ⟨value, rfl, fun rank target found => ?_, rfl, _, _, _, rfl⟩
    rw [Table.lookup_cons] at found
    split at found
    · cases found
      rfl
    · exact included start rank target found

/-! ### Following copies -/

/-- Finds out the type of a node that is not noted yet. -/
def findType (depth : Nat) : Node → Planning (Option String)
  | .object pos _ origin tag .. => objectType origin tag pos
  | .constant pos _ tag name _ => constantType tag name pos
  | .reference _ _ source | .copy _ _ source _ => do
    match ← entry? source with
    | some entry => typeWithin depth entry.node
    | none => pure none
  | .inclusion pos order source id resources => do
    return (← includeTarget (.inclusion pos order source id resources) source).map (·.rootType)
  | _ => pure none

theorem typeWithin_succ (depth : Nat) (node : Node)
    : typeWithin (depth + 1) node = do
        match (← get).types.lookup node.order with
        | some known => return known
        | none =>
          noteType node none
          let type ← findType depth node
          noteType node type
          return type := by
  unfold typeWithin
  refine bind_congr fun s => ?_
  generalize lookup node.order s.types = noted
  cases noted with
  | some known => rfl
  | none =>
    refine bind_congr fun _ => ?_
    cases node with
    | reference | copy =>
      simp only [findType, bind_assoc]
      refine bind_congr fun entry => ?_
      cases entry <;> rfl
    | inclusion => simp only [findType, bind_assoc, pure_bind]
    | _ => rfl

theorem noteType_ends {type : Option String} : Ends c (noteType node type) s fun _ t =>
        t = { s with types := (node.order, type) :: s.types } :=
  (ends_modify rfl).mpr fun _ => rfl

/-- Whether a node can declare an id; it then stands for an object. -/
def IsElement : Node → Prop
  | .object .. | .constant .. | .copy .. | .inclusion .. => True
  | _ => False

theorem isElement_of_id? (h : node.id? = some id) : IsElement node := by
  cases node <;> trivial

/-- What is noted about types is right, and nodes under way are noted without one. -/
structure Notes (c : Context) (busy : List Node) (s : State) : Prop where
  typed : Typed c busy s
  included : Included s
  marked : ∀ b ∈ busy, b ∈ c.document.root.walk ∧ s.types.lookup b.order = some none

theorem Notes.start (sound : c.Sound) (h : Notes c busy s) (inside : node ∈ c.document.root.walk)
    : Notes c (node :: busy) { s with types := (node.order, none) :: s.types } := by
  refine ⟨fun other there away found noted => ?_, h.included, fun b member => ?_⟩
  · obtain ⟨different, away⟩ := not_or.mp (mt mem_cons.mpr away)
    rw [Table.lookup_cons, if_neg (mt (sound.eq_of_order there inside) different)] at noted
    exact h.typed other there away found noted
  · rw [Table.lookup_cons]
    rcases mem_cons.mp member with rfl | old
    · exact ⟨inside, if_pos rfl⟩
    · obtain ⟨there, noted⟩ := h.marked b old
      exact ⟨there, by split <;> [rfl; exact noted]⟩

theorem Notes.settle (sound : c.Sound) (h : Notes c (node :: busy) s) (fresh : node ∉ busy)
    (right : Finding c node found)
    : Notes c busy { s with types := (node.order, found) :: s.types } := by
  obtain ⟨inside, _⟩ := h.marked node (by simp)
  refine ⟨fun other there away found' noted => ?_, h.included, fun b member => ?_⟩
  · rw [Table.lookup_cons] at noted
    split at noted
    · rename_i same
      cases noted
      exact sound.eq_of_order there inside same ▸ right
    · rename_i different
      refine h.typed other there ?_ found' noted
      rw [mem_cons, not_or]
      exact ⟨fun same => different (same ▸ rfl), away⟩
  · obtain ⟨there, noted⟩ := h.marked b (mem_cons_of_mem _ member)
    have different : b.order ≠ node.order :=
      fun same => fresh (sound.eq_of_order there inside same ▸ member)
    rw [Table.lookup_cons, if_neg different]
    exact ⟨there, noted⟩

/-- The search for a type has come to a node along the copies under way, all different, all but the
first declared by an id.
-/
structure Pursuit (c : Context) (first : Node) (busy : List Node) (node : Node) : Prop where
  distinct : busy.Nodup
  led : ∀ b ∈ busy, TransGen (Node.Follows c.registry) b node
  inside : node ∈ c.document.root.walk
  within : ∀ b ∈ node :: busy, b ∈ first :: c.registry.values.map Entry.node

/-- No more nodes are under way than there are ids, and one. -/
theorem Pursuit.length_le (h : Pursuit c first busy node)
    : busy.length ≤ c.registry.length + 1 := by
  have sub : busy ⊆ first :: c.registry.values.map Entry.node :=
    fun b member => h.within b (mem_cons_of_mem _ member)
  simpa [Table.values] using (h.distinct.subperm sub).length_le

theorem Pursuit.start (inside : node ∈ c.document.root.walk) : Pursuit c node [] node :=
  ⟨by simp, by simp, inside, by simp⟩

theorem Pursuit.next (sound : c.Sound) (h : Pursuit c first busy node) (fresh : node ∉ busy)
    (declared : c.registry.get? source = some entry)
    (step : Node.Follows c.registry node entry.node)
    : Pursuit c first (node :: busy) entry.node := by
  refine {
    distinct := nodup_cons.mpr ⟨fresh, h.distinct⟩
    led := fun b member => ?_
    inside := (sound.declares source entry declared).1
    within := fun b member => ?_
  }
  · rcases mem_cons.mp member with rfl | old
    · exact .single step
    · exact (h.led b old).tail step
  · rcases mem_cons.mp member with rfl | old
    · refine mem_cons_of_mem _ (mem_map.mpr ⟨entry, ?_, rfl⟩)
      exact mem_map.mpr ⟨_, Table.mem_of_get? declared, rfl⟩
    · exact h.within b old

/-- A type that is noted already is right; that of a node under way is none, and rightly so. -/
theorem Pursuit.noted {first node : Node} (h : Pursuit c first busy node) (notes : Notes c busy s)
    (noted : s.types.lookup node.order = some found)
    : Finding c node found := by
  by_cases under : node ∈ busy
  · obtain rfl : none = found :=
      Option.some.inj ((notes.marked node under).2.symm.trans noted)
    exact fun grounded => grounded.not_cyclic (h.led node under)
  · exact notes.typed node h.inside under found noted

/-- The type of a node is found out rightly if the types of the nodes that it copies are. -/
theorem findType_ends (element : IsElement node) (notes : s.Clean → Notes c busy s)
    (follow : ∀ source entry,
      c.registry.get? source = some entry
      → Node.Follows c.registry node entry.node
      → Ends c (typeWithin depth entry.node) s fun found t =>
          Finding c entry.node found ∧ Notes c busy t ∧ Retyped s t)
    : Ends c (findType depth node) s fun found t =>
        Finding c node found ∧ Notes c busy t ∧ Retyped s t := by
  cases node with
  | object pos order origin tag id attributes children text =>
    refine objectType_ends.imp fun found t clean _ given => ?_
    obtain ⟨type, rfl, rfl, resolved, described⟩ := given
    exact ⟨⟨.object .., resolved, described⟩, notes clean, .refl t⟩
  | constant pos order tag name id =>
    refine constantType_ends.imp fun found t clean _ given => ?_
    obtain ⟨type, rfl, rfl, resolved⟩ := given
    exact ⟨⟨.constant .., resolved⟩, notes clean, .refl t⟩
  | copy pos order source id =>
    rw [findType, ends_entry?_bind]
    cases declared : c.registry.get? source with
    | none =>
      refine ends_pure.mpr fun clean => ⟨fun grounded => ?_, notes clean, .refl s⟩
      cases grounded with
      | copy _ _ _ declared' => simp [declared] at declared'
    | some entry =>
      refine (follow source entry declared (.copy pos order id declared)).imp ?_
      rintro found t _ _ ⟨right, kept⟩
      refine ⟨?_, kept⟩
      cases found with
      | none => exact mt (Node.grounded_copy_iff declared).mp right
      | some type => exact ⟨(Node.grounded_copy_iff declared).mpr right.1, trivial⟩
  | inclusion pos order source id resources =>
    refine (includeTarget_ends fun clean => (notes clean).included).bindGiven
      (fun _ => ends_pure_of_not_clean) fun target t after => ends_pure.mpr fun clean => ?_
    obtain ⟨start, included, same, retyped⟩ := after clean
    refine ⟨⟨.inclusion .., trivial⟩, ⟨?_, included, ?_⟩, retyped⟩
    · intro other there away found noted
      exact (notes start).typed other there away found (same ▸ noted)
    · exact fun b member => same ▸ (notes start).marked b member
  | property | staticProperty | define | reference => exact element.elim

/-- The type of a node is found out rightly, and so is all that is noted on the way. -/
theorem typeWithin_ends (sound : c.Sound) (element : IsElement node)
    (enough : busy.length + depth = c.registry.length + 2)
    (pre : s.Clean → Notes c busy s ∧ Pursuit c first busy node)
    : Ends c (typeWithin depth node) s fun found t =>
        Finding c node found ∧ Notes c busy t ∧ Retyped s t := by
  induction depth generalizing node busy s with
  | zero =>
    refine ends_pure.mpr fun clean => ?_
    have := (pre clean).2.length_le
    omega
  | succ depth ih =>
    rw [typeWithin_succ, ends_get_bind]
    split
    · rename_i known noted
      refine ends_pure.mpr fun clean => ?_
      obtain ⟨notes, pursuit⟩ := pre clean
      exact ⟨pursuit.noted notes noted, notes, .refl s⟩
    · rename_i unknown
      have fresh (clean : s.Clean) : node ∉ busy := by
        intro under
        rw [((pre clean).1.marked node under).2] at unknown
        cases unknown
      refine noteType_ends.bind fun _ t noted => ?_
      have started (clean : t.Clean) : s.Clean ∧ Notes c (node :: busy) t ∧ Retyped s t := by
        obtain ⟨start, rfl⟩ := noted clean
        exact ⟨start, (pre start).1.start sound (pre start).2.inside, _, _, _, rfl⟩
      refine Ends.bind (findType_ends element (fun clean => (started clean).2.1) ?_) ?_
      · intro source entry declared step
        refine ih (isElement_of_id? (sound.declares source entry declared).2)
          (by simp only [length_cons]; omega) fun clean => ?_
        obtain ⟨start, notes, _⟩ := started clean
        exact ⟨notes, (pre start).2.next sound (fresh start) declared step⟩
      · intro found u after
        refine noteType_ends.bind fun _ v settled => ends_pure.mpr fun clean => ?_
        obtain ⟨between, rfl⟩ := settled clean
        obtain ⟨first, right, notes, retyped⟩ := after between
        obtain ⟨start, _, before⟩ := started first
        exact ⟨right, notes.settle sound (fresh start) right,
          before.trans (retyped.trans ⟨_, _, _, rfl⟩)⟩

/-! ### Nodes and expressions -/

theorem Retyped.grows (h : Retyped s t) : Extends s t := by
  obtain ⟨ds, types, includes, rfl⟩ := h
  exact .of_same rfl rfl rfl rfl

theorem Inv.retyped (inv : Inv c underway s) (h : Retyped s t) (notes : Notes c [] t)
    : Inv c underway t := by
  obtain ⟨ds, types, includes, rfl⟩ := h
  exact inv.renoted rfl rfl rfl (Subset.refl _) notes.typed notes.included inv.bound

theorem includeTarget_plans
    : Plans c underway (includeTarget node source) s (Given fun _ _ => True) := by
  refine .of_ends fun inv => ?_
  refine (includeTarget_ends fun clean => (inv clean).included).imp ?_
  rintro found t _ start ⟨target, rfl, included, same, retyped⟩
  refine ⟨(inv start).retyped retyped ⟨?_, included, by simp⟩, retyped.grows, target, rfl, trivial⟩
  exact fun node there away found noted => (inv start).typed node there away found (same ▸ noted)

theorem typeOf_plans (sound : c.Sound) (inside : node ∈ c.document.root.walk)
    (element : IsElement node)
    : Plans c underway (typeOf node) s fun found _ => Finding c node found := by
  refine .of_ends fun inv => ?_
  unfold typeOf
  rw [ends_read_bind]
  have pre (clean : s.Clean) : Notes c [] s ∧ Pursuit c node [] node :=
    ⟨⟨(inv clean).typed, (inv clean).included, by simp⟩, .start inside⟩
  refine (typeWithin_ends sound element (Nat.zero_add _) pre).imp ?_
  rintro type t _ start ⟨right, notes, retyped⟩
  exact ⟨(inv start).retyped retyped notes, retyped.grows, right⟩

theorem entryType_plans (sound : c.Sound) (declared : c.registry.get? id = some entry)
    : Plans c underway (typeOf entry.node) s fun found _ => Finding c entry.node found :=
  typeOf_plans sound (sound.declares id entry declared).1
    (isElement_of_id? (sound.declares id entry declared).2)

end Fxml.Planning
