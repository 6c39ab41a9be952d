import Fxml.Proofs.Planning.Naming
import Fxml.Proofs.Planning.Sources

/-! How objects come to be in a run without errors. The element gets exactly the parts that the
chosen way needs, and a finished element depends on all that it reads.
-/

open List

namespace Fxml.Planning

variable {e : Element} {d d' : Draft} {c : Context} {s t : State}
  {underway dependencies : List String} {node : Node} {type tag : String}
  {descriptor : TypeDescriptor} {origin : Origin} {pieces : List Piece}

/-- Links to the controller and places in the tree do not matter for a finished element. -/
theorem Finished.update (h : Finished c s e)
    (grown : ∀ var, var ∈ e.dependencies → var ∈ dependencies)
    (only : ∀ var ∈ dependencies, var ∈ e.dependencies ∨ var = Plan.controllerNode)
    (field : Option String) (attached : Bool)
    : Finished c s { e with
        dependencies := dependencies, field := field, attached := attached } where
  shaped := h.shaped.update h.shaped.steps e.setsId dependencies field attached
  builders := h.builders
  reads := h.reads
  depends source member _ needed := grown _ (h.depends source member needed)
  justified var needed := (only var needed).elim (h.justified var) .inl
  told := h.told.imp fun _ ⟨inside, order, told⟩ =>
    ⟨inside, order, told.of_same ⟨rfl, rfl, rfl, rfl, rfl⟩⟩

theorem reput_plans (there : s.Clean → (e.var, e) ∈ s.elements)
    (grown : ∀ var, var ∈ e.dependencies → var ∈ dependencies)
    (only : ∀ var ∈ dependencies, var ∈ e.dependencies ∨ var = Plan.controllerNode)
    (field : Option String) (attached : Bool)
    : Plans c underway
        (putElement { e with dependencies := dependencies, field := field, attached := attached })
        s fun _ _ => True := by
  refine .of_ends fun inv => putElement_ends.imp ?_
  rintro _ t _ start rfl
  obtain ⟨_, node, stands⟩ := (inv start).standing e.var e (there start)
  refine ⟨(inv start).put (stands.of_same ⟨rfl, rfl, rfl, rfl⟩) (fun away => ?_)
    (fun _ under => .inr under), s.grows_put _, trivial⟩
  exact ((inv start).finished e.var e (there start) away).update grown only field attached

/-! ### The choice -/

/-- A way to make the object is chosen, and a builder has a name of its own. -/
structure Decided (c : Context) (origin : Origin) (d d' : Draft) (s : State) : Prop where
  chosen : Chosen c origin d d'
  builders : ∀ name ∈ d'.element.builderVars, Private s name

theorem Bare.private_of_builder (h : Bare e) : ∀ name ∈ e.builderVars, Private s name := by
  simp [Element.builderVars, h.builderVar, h.inclusion]

theorem useText_plans (sound : c.Sound) (bare : s.Clean → Bare d.element) {text : Value}
    (has : d.text = some text)
    : Plans c underway (useText d text) s (Given (Decided c .construct d)) := by
  unfold useText
  split
  · exact plans_refuse rfl
  · refine (valueSource_plans sound).bindGiven (fun _ => plans_pure_of_not_clean) ?_
    intro source t after
    refine plans_pure.mpr fun clean _ => ⟨_, rfl, ?_⟩
    obtain ⟨start, _, _, makes, reads⟩ := after clean
    exact ⟨.text rfl has makes reads, (bare start).private_of_builder⟩

theorem useBuilder_plans (bare : s.Clean → Bare d.element) {builder : String}
    (wordless : d.pending = [] → d.text = none)
    : Plans c underway (useBuilder d builder) s (Given (Decided c .construct d)) := by
  unfold useBuilder
  rw [plans_describe_bind]
  split
  · exact plans_refuse rfl
  refine (Plans.noRounds fun _ _ _ => ends_refuse rfl).bind fun _ t settled => ?_
  refine claimName_plans.bind fun var u claimed => plans_pure.mpr fun clean _ => ?_
  obtain ⟨start, _, _, none_refused, _⟩ := settled (claimed clean).clean
  refine ⟨_, if_pos (isEmpty_iff.mpr none_refused), ?_⟩
  rw [filter_eq_self.mpr fun entry member => by
    simpa using filter_eq_nil_iff.mp none_refused entry member]
  refine ⟨.builder rfl wordless, fun name member => ?_⟩
  have same : name = var := by simpa [Element.builderVars, (bare start).inclusion] using member
  exact same ▸ (claimed clean).holds

theorem useConstructor_plans (sound : c.Sound) (bare : s.Clean → Bare d.element)
    (wordless : d.pending = [] → d.text = none)
    : Plans c underway (useConstructor d) s (Given (Decided c .construct d)) := by
  unfold useConstructor
  split
  · rename_i chosen best
    refine plans_pure.mpr fun clean _ => ⟨_, rfl, ?_⟩
    exact ⟨.construct rfl wordless (best_of_some best).1, (bare clean).private_of_builder⟩
  split
  · rename_i text has
    exact useText_plans sound bare has
  · exact plans_error_bind (by split <;> rfl) fun _ => plans_pure_of_not_clean

theorem useType_plans (sound : c.Sound) (bare : s.Clean → Bare d.element)
    : Plans c underway (useType d) s (Given (Decided c .construct d)) := by
  unfold useType
  dsimp only
  split
  · rename_i spent
    split
    · rename_i text has
      exact useText_plans sound bare has
    rename_i noText
    have wordless : d.text = none := Option.eq_none_iff_forall_ne_some.mpr noText
    split
    · refine plans_pure.mpr fun clean _ => ⟨_, rfl, ?_⟩
      exact ⟨.plain rfl (isEmpty_iff.mp spent) wordless, (bare clean).private_of_builder⟩
    split
    · exact useBuilder_plans bare fun _ => wordless
    · exact useConstructor_plans sound bare fun _ => wordless
  · rename_i kept
    have wordless spent : d.text = none := (kept (isEmpty_iff.mpr spent)).elim
    split
    · exact useBuilder_plans bare wordless
    · exact useConstructor_plans sound bare wordless

/-- Without an error there is a way to make the object. -/
theorem chooseStrategy_plans (sound : c.Sound) (bare : s.Clean → Bare d.element)
    (resolved : s.Clean → ∃ name, c.types.resolveType tag c.document.imports = .ok (some name))
    : Plans c underway (chooseStrategy d origin tag) s (Given (Decided c origin d)) := by
  unfold chooseStrategy
  split
  · refine rejectPending_plans.bind fun _ t after => plans_pure.mpr fun clean _ => ?_
    obtain ⟨start, _, _, spent⟩ := after clean
    exact ⟨_, rfl, .root rfl spent, (bare start).private_of_builder⟩
  · refine textSource_plans.bindGiven (fun _ => plans_pure_of_not_clean) ?_
    intro source t read
    refine rejectPending_plans.bind fun _ u after => plans_pure.mpr fun clean _ => ?_
    obtain ⟨start, _, _, converts⟩ := read (after clean).clean
    exact ⟨_, rfl, .value rfl (after clean).holds converts, (bare start).private_of_builder⟩
  · rw [plans_read_bind]
    refine rejectPending_plans.bind fun _ t after => plans_pure.mpr fun clean _ => ?_
    obtain ⟨start, _, _, spent⟩ := after clean
    obtain ⟨owner, found⟩ := resolved start
    refine ⟨_, rfl, ?_, (bare start).private_of_builder⟩
    rw [found]
    exact .factory rfl spent
  · exact useType_plans sound bare

/-! ### The element -/

theorem finish_plans : Plans c underway (finish d) s fun e _ =>
        ∃ sets all,
          e = { d.whole with setsId := sets, dependencies := all }
          ∧ ∀ var, var ∈ all
            ↔ var ∈ d.element.dependencies
              ∨ ∃ source ∈ d.whole.sources, var ∈ source.needs c.varOf := by
  unfold finish
  rw [plans_read_bind]
  refine plans_pure.mpr fun _ _ => ?_
  obtain ⟨all, same, grown⟩ := Element.foldl_dependOn_eq
    { d.whole with setsId := setsId d.element d.descriptor }
    (d.whole.sources.flatMap (Source.needs c.varOf))
  refine ⟨_, all, same, fun var => (grown var).trans ?_⟩
  rw [mem_flatMap]
  rfl

/-- The choice is about the values of an element only. -/
theorem Chosen.same (h : Chosen c origin d d')
    : SameNode d.element d'.element
      ∧ d'.element.type = d.element.type
      ∧ d'.element.dependencies = d.element.dependencies := by
  cases h <;> exact ⟨⟨rfl, rfl, rfl, rfl⟩, rfl, rfl⟩

/-- The element has the parts that the chosen way needs. -/
theorem Chosen.shaped (h : Chosen c origin d d') (bare : Bare d.element)
    (strategy : d.element.strategy = .construct)
    : d'.element.Shaped := by
  obtain ⟨args, builder, _, builderSteps, owner, source, inclusion, steps⟩ := bare
  cases h with
  | builder =>
    refine {
      args := fun _ => args
      source := by simp [source]
      owner := by simp [owner]
      builder := by simp
      builderVar := by simp
      builderSteps := by simp
      inclusion := by simp
      named := by simp
      steps := by simp [steps]
      plain := fun step member => ?_
    }
    obtain ⟨_, _, rfl⟩ := mem_map.mp member
    rfl
  | root | value | factory | text | plain | construct =>
    constructor <;>
      simp [Draft.construct, strategy, args, builder, builderSteps, owner, source, steps]

/-- What a draft holds reads only what is known. -/
theorem Recorded.sensible (h : Recorded c pieces { element := e, descriptor } d s)
    : (∀ step ∈ d.steps ++ d.handlers, Sensible c s step)
      ∧ ∀ name source place, (name, source, place) ∈ d.pending → Reads c s source := by
  obtain ⟨log, _, rfl, justifies⟩ := h
  refine ⟨fun step member => ?_, fun name source place member => ?_⟩
  · rw [steps_replay, handlers_replay] at member
    rcases mem_append.mp member with set | handled
    · obtain ⟨entry, listed, same⟩ := mem_filterMap.mp set
      have valid := (justifies entry listed).2
      rw [Effect.step?_eq_some same] at valid
      exact valid
    · obtain ⟨entry, listed, same⟩ := mem_filterMap.mp handled
      have valid := (justifies entry listed).2
      rw [Effect.handler?_eq_some same] at valid
      exact valid
  · rcases mem_pending_replay member with impossible | ⟨piece, site, listed⟩
    · cases impossible
    · exact (justifies _ listed).2

/-- An element that is made of the record of its node's pieces is finished. -/
theorem Decided.finished {pos : Position} {order : Nat} {id : Option String}
    {attributes : List Attribute} {children : List Node} {text : Option Value}
    (h : Decided c origin d d' s)
    (is : node = .object pos order origin tag id attributes children text)
    (described : c.types.describe type = some descriptor) (begun : Begun c node type .construct e s)
    (recorded : Recorded c node.pieces { element := e, descriptor } d s) {sets : Bool}
    {all : List String} (grown : ∀ var, var ∈ all
      ↔ var ∈ d'.element.dependencies ∨ ∃ source ∈ d'.whole.sources, var ∈ source.needs c.varOf)
    : Finished c s { d'.whole with setsId := sets, dependencies := all } := by
  obtain ⟨bare, strategy, typed, depends, ⟨placed, _, _, _, rank, _⟩, _⟩ := begun
  obtain ⟨sensible, pending⟩ := recorded.sensible
  have element : d.element = e := recorded.same.1
  obtain ⟨same, sameType, sameDepends⟩ := h.chosen.same
  rw [element] at same sameType sameDepends
  have shaped := h.chosen.shaped (element ▸ bare) (element ▸ strategy)
  refine {
    shaped := shaped.update (fun step member => ?_) _ _ _ _
    builders := h.builders
    reads := fun source member => ?_
    depends := fun source member var needed => (grown var).mpr (.inr ⟨source, member, needed⟩)
    justified := fun var needed => ?_
    told := ⟨node, placed.mem_walk, same.order.trans rank, ?_⟩
  }
  · -- Only a constructor leaves steps out: the setters that it takes.
    have within : step ∈ d.steps ++ d.handlers := by
      cases h.chosen with
      | construct =>
        exact (mem_append.mp member).elim
          (fun set => mem_append_left _ (mem_of_mem_filter set)) (mem_append_right _)
      | root | value | factory | text | plain | builder => exact member
    exact (sensible step within).1
  · rcases h.chosen.source_from (element ▸ bare) member with
      ⟨step, there, rfl⟩ | ⟨name, place, kept⟩ | ⟨_, _, _, reads⟩ | ⟨_, _, _, _, converts⟩
    · exact (sensible step there).2
    · exact pending name source place kept
    · exact reads s
    · exact Coercion.convert_valid converts
  · rcases (grown var).mp needed with before | there
    · rw [sameDepends, depends] at before
      cases before
    · exact .inr there
  · obtain ⟨log, taken, rfl, justifies⟩ := recorded
    subst is
    exact ⟨descriptor, log, (sameType.trans typed).symm ▸ described, taken, e, d', bare,
      same.var.symm, justifies, h.chosen, rfl, rfl, rfl, rfl, rfl⟩

end Fxml.Planning
