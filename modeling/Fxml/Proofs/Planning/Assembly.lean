import Fxml.Proofs.Planning.Elements
import Fxml.Proofs.Planning.Ordering
import Fxml.Proofs.Planning.Registration

/-! Whole plans. A plan that comes without an error holds exactly the elements that planning put, in
a construction order, and the modules of all types that can be imported.
-/

open List

namespace Fxml.Planning

variable {c : Context} {s t : State} {underway : List String}

/-! ### The controller's fields -/

theorem injectField_plans {controller : TypeDescriptor} {id : String} {entry : Entry}
    : Plans c underway (injectField controller id entry) s fun _ _ => True := by
  refine .given fun inv => ?_
  unfold injectField
  rw [plans_get_bind]
  split
  · rename_i e declared found _
    rw [plans_isAssignable_bind]
    split
    · obtain ⟨all, same, grown⟩ := Element.dependOn_eq
        { e with field := some id } Plan.controllerNode
      rw [same]
      refine (reput_plans (e := e) (fun clean => ?_) (fun var old => (grown var).mpr (.inl old))
        (fun var => (grown var).mp) (some id) e.attached).bind fun _ _ _ => addLink_plans _
      have there := Table.mem_of_get? found
      rw [((inv clean).standing _ e there).1]
      exact there
    · exact plans_report
  · exact plans_pure_trivial

/-! ### The plan -/

/-- A plan is made of what the state holds. -/
structure Assembled (c : Context) (root : Element) (plan : Plan) (s : State) : Prop where
  root : plan.rootVar = root.var
  elements : plan.elements = s.elements
  order : Ordered s.elements plan.order
  registry
    : plan.registry
      = (c.registry.filter fun (_, entry) => s.elements.contains entry.var).map
          fun (id, entry) => (id, entry.var)
  bindings : plan.bindings.Perm s.bindings
  controller : plan.controller.map (·.type) = c.controller.map (·.name)
  moduleOf : plan.moduleOf = typeModules c.types c.controller s.elements
  modules : plan.moduleOf.values ⊆ plan.modules
  included
    : ∀ e ∈ s.elements.values, ∀ inclusion, e.inclusion = some inclusion
        → inclusion.module ∈ plan.modules

theorem mem_addModule {modules : List String} {module other : String}
    : other ∈ addModule modules module ↔ other ∈ modules ∨ other = module := by
  unfold addModule
  split
  · rename_i there
    refine ⟨.inl, fun h => h.elim id fun same => ?_⟩
    exact same ▸ contains_iff_mem.mp there
  · simp

theorem subset_foldl_addModule (more modules : List String)
    : more ⊆ more.foldl addModule modules ∧ modules ⊆ more.foldl addModule modules := by
  induction more generalizing modules with
  | nil => exact ⟨nil_subset _, Subset.refl _⟩
  | cons module rest ih =>
    obtain ⟨later, kept⟩ := ih (addModule modules module)
    refine ⟨cons_subset.mpr ⟨?_, later⟩, fun other member => ?_⟩
    · exact kept (mem_addModule.mpr (.inr rfl))
    · exact kept (mem_addModule.mpr (.inl member))

theorem assemble_plans {module className : String} {root : Element}
    : Plans c [] (assemble module className root) s (Assembled c root) := by
  unfold assemble
  rw [plans_read_bind]
  split
  on_goal 1 =>
    refine (Plans.loop fun entry _ t =>
      injectField_plans.bind fun _ _ _ => plans_pure_trivial).bind fun _ t _ => ?_
  all_goals
    refine (Plans.loop fun id _ u => ?_).bind fun _ u _ => ?_
    · split
      · exact plans_pure_trivial
      · exact plans_refuse rfl
    refine orderElements_plans.bind fun order v listed => ?_
    rw [plans_get_bind]
    refine plans_pure.mpr fun clean _ => ?_
    obtain ⟨rfl, ordered⟩ := (listed clean).holds
    have modules := (subset_foldl_addModule
      ((typeModules c.types c.controller v.elements).values
        ++ v.elements.values.filterMap fun e => e.inclusion.map (·.module)) []).1
    exact {
      root := rfl
      elements := rfl
      order := ordered
      registry := rfl
      bindings := mergeSort_perm _ _
      controller := by rw [Option.map_map]; rfl
      moduleOf := rfl
      modules := fun module member => modules (mem_append_left _ member)
      included := fun e member inclusion same => modules (mem_append_right _
        (mem_filterMap.mpr ⟨e, member, by rw [same]; rfl⟩))
    }

/-! ### The document -/

theorem placed_definition_subset (node : Node) : node.placed .definition ⊆ node.placed .object := by
  by_cases item : isItem node = true
  · rw [placed_of_isItem item .definition .object]
    exact Subset.refl _
  · cases node with
    | property | staticProperty | define => exact nil_subset _
    | object | constant | reference | copy | inclusion => exact (item rfl).elim

theorem planNode_plans_root (sound : c.Sound)
    : Plans c [] (planNode c.document.root) s fun found t =>
        ∀ e, found = some e
          → (e.var, e) ∈ t.elements ∧ Covered c (c.document.root.placed .object) t := by
  have planned : Plans c [] (planNode c.document.root) s (Planned c c.document.root) :=
    planNode_plans sound c.document.root
      fun node member => placed_definition_subset c.document.root member
  by_cases item : isItem c.document.root = true
  · refine planned.imp fun found t _ after e same => ⟨(after.holds.there e same).1, ?_⟩
    rw [placed_of_isItem item .object .definition]
    exact after.holds.covered
  · have nothing : planNode c.document.root = pure none := by
      cases root : c.document.root with
      | property | staticProperty | define => simp [planNode]
      | object | constant | reference | copy | inclusion => exact (item (root ▸ rfl)).elim
    rw [nothing]
    exact plans_pure.mpr fun _ _ e same => by cases same

/-- What a plan without errors is made of. -/
structure Made (c : Context) (plan : Plan) (s : State) : Prop where
  inv : Inv c [] s
  covered : Covered c (c.document.root.placed .object) s
  root : plan.rootVar ∈ s.elements.keys
  assembled : ∃ root, Assembled c root plan s

theorem planDocument_plans (sound : c.Sound) (module className : String)
    : Plans c [] (planDocument module className) s fun found t =>
        ∀ plan, found = some plan → Made c plan t := by
  unfold planDocument
  rw [plans_read_bind]
  refine (planNode_plans_root sound).bind fun found t planned => ?_
  cases found with
  | none => exact plans_pure.mpr fun _ _ _ same => nomatch same
  | some root =>
    refine assemble_plans.bind fun plan u after => ?_
    refine plans_pure.mpr fun clean inv plan' same => ?_
    cases same
    obtain ⟨before, _, grows, assembled⟩ := after clean
    obtain ⟨there, covered⟩ := (planned before).holds root rfl
    refine ⟨inv, covered.mono grows, ?_, root, assembled⟩
    rw [assembled.root]
    exact grows.elements (Table.mem_keys_of_mem there)

end Fxml.Planning

namespace Fxml

open Planning

variable {document : Document} {settings : PlanSettings} {module className : String}
  {diagnostics reports : Diagnostics} {known known' : IncludeCache}

/-- A plan that is found was planned after the ids were registered. -/
theorem Document.plan_yields {found : Option Plan}
    (run : (document.plan settings module className diagnostics).run.run known
      = (.ok (found, reports), known'))
    : ∃ c r ds s,
        document.root.walk.foldlM register
            { diagnostics, namer := .avoiding (settings.reserved ++ importedNames document) }
          = .ok r
        ∧ (ds.ok = true → r.diagnostics.ok = true)
        ∧ c.document = document
        ∧ c.types = settings.types
        ∧ c.registry = r.registry
        ∧ Yields c (planDocument module className) (r.state ds) found s
        ∧ s.diagnostics = reports := by
  unfold Document.plan at run
  dsimp only at run
  cases registration : document.root.walk.foldlM register
      { diagnostics, namer := .avoiding (settings.reserved ++ importedNames document) } with
  | error crash =>
    rw [registration] at run
    cases run
  | ok r =>
    rw [registration] at run
    have planned : ∃ c ds,
        (ds.ok = true → r.diagnostics.ok = true)
        ∧ (c.document = document ∧ c.types = settings.types ∧ c.registry = r.registry)
        ∧ (do
            let result ← ((planDocument module className).run c).run (r.state ds)
            pure (result.1, result.2.diagnostics)
            : Lookup (Option Plan × Diagnostics)).run.run known
          = (.ok (found, reports), known') := by
      refine ⟨_, _, ?_, ⟨rfl, rfl, rfl⟩, run⟩
      split
      · exact id
      · exact ok_of_report
    obtain ⟨c, ds, clean, same, run⟩ := planned
    simp only [ExceptT.run_bind, StateT.run_bind] at run
    rcases planned : (((planDocument module className).run c).run (r.state ds)).run.run known
      with ⟨_ | ⟨found', s⟩, between⟩
    all_goals
      rw [planned] at run
      cases run
    exact ⟨c, r, ds, s, rfl, clean, same.1, same.2.1, same.2.2, ⟨known, between, planned⟩, rfl⟩

/-- Once the ids are registered, planning starts with a sound context and the invariant. -/
theorem Planning.Registered.start {c : Context} {r : Registration}
    (registered : Registered c.document.root.walk r) (registry : c.registry = r.registry)
    (ranks : (c.document.root.walk.map Node.order).Nodup) (ds : Diagnostics)
    : c.Sound ∧ Inv c [] (r.state ds) := by
  constructor
  · exact {
      ranks
      unique := registry ▸ registered.unique
      declares := fun id entry found =>
        (registered.declares id entry (registry ▸ found)).imp_right And.left
    }
  · exact {
      named := ⟨registered.named.ranked, registered.named.unique, registered.named.taken,
        registered.named.free, registered.named.reserved⟩
      declared := fun id entry found => (registered.declares id entry (registry ▸ found)).2.2
      unique := nodup_nil
      standing := fun _ _ member => nomatch member
      finished := fun _ _ member => nomatch member
      typed := fun _ _ _ _ noted => nomatch noted
      included := fun _ _ noted => nomatch noted
      bound := fun _ member => nomatch member
    }

/-- A plan without errors comes from a state in which all placed and grounded nodes have finished
elements.
-/
theorem Document.made_of_plan {plan : Plan} (ranks : (document.root.walk.map Node.order).Nodup)
    (run : (document.plan settings module className diagnostics).run.run known
      = (.ok (some plan, reports), known')) (clean : reports.ok = true)
    : ∃ c s,
        c.document = document
        ∧ c.types = settings.types
        ∧ c.registry = document.ids settings.reserved
        ∧ c.Sound
        ∧ Made c plan s := by
  obtain ⟨c, r, ds, s, registration, _, rfl, types, registry, yields, rfl⟩ :=
    Document.plan_yields run
  have registered := (registered_start _ _).run ranks registration
  rw [nil_append] at registered
  obtain ⟨sound, start⟩ := registered.start registry ranks ds
  have after := planDocument_plans sound module className (fun _ => start) _ _ yields clean
  exact ⟨c, s, rfl, types, registry.trans (Document.ids_eq registration).symm, sound,
    after.holds plan rfl⟩

end Fxml
