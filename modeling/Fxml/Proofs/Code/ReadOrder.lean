import Fxml.Proofs.Code.Readiness
import Fxml.Proofs.Document.Ranks
import Fxml.Proofs.Planning.Consistency
import Fxml.Proofs.Planning.LocalNames

/-! The construction order respects what the code reads. An element depends on all that its sources
need, and the order lists each element after those that it depends on.
-/

open List

namespace Fxml.Code

namespace Scope

variable {s : Scope} {wide : Bool} {e : Element} {source : Source}

/-- The names that the terms of an element's sources may hold. -/
def reachOf (s : Scope) (wide : Bool) (e : Element) : List String :=
  s.common wide ++ e.sources.flatMap (Source.needs s.plan.registry.get?)

/-- The names that the statements of an element may hold. -/
def namesOf (s : Scope) (wide : Bool) (e : Element) : List String :=
  e.var :: (e.builderVars ++ s.reachOf wide e)

theorem reach_subset (member : source ∈ e.sources) : s.reach wide source ⊆ s.reachOf wide e :=
  append_subset_append (Subset.refl _) fun _ needed =>
    mem_flatMap.mpr ⟨source, member, needed⟩

theorem admits_reachOf {sources : List Source} (within : sources ⊆ e.sources)
    : s.Admits wide (s.reachOf wide e) sources where
  common := subset_append_left _ _
  source source member term made :=
    Subset.trans ((sourceTerm_spec source).holds term made wide) (reach_subset (within member))

theorem handlerTerm_vars {adapter : String} {term : Term}
    (h : s.handlerTerm adapter source = .ok term)
    : term.vars wide ⊆ s.reach wide source := by
  refine handlerTerm_known ⟨subset_append_left _ _, fun source' member term made => ?_⟩ h
  rw [mem_singleton.mp member] at made
  exact (sourceTerm_spec source).holds term made wide

theorem elementStatements_vars {statements : List Statement} (shaped : e.Shaped)
    (h : s.elementStatements e = .ok statements)
    : statements.flatMap (Statement.vars wide) ⊆ s.namesOf wide e := by
  have all : e.sources = e.makers ++ e.steps.map (·.source) := by
    simp [Element.sources, Element.makers]
  have makers : e.makers ⊆ e.sources := all ▸ subset_append_left _ _
  have steps : e.steps.map (·.source) ⊆ e.sources := all ▸ subset_append_right _ _
  have makes := elementStatements_makes (@admits_reachOf s wide e _ makers)
    (fun _ grown _ => (admits_reachOf steps).mono grown) h
  have builder {v : String} (named : v ∈ e.builderVars) : v ∈ s.namesOf wide e :=
    mem_cons_of_mem _ (mem_append_left _ named)
  have own {v : String} (assigned : v ∈ statements.flatMap Statement.assigned) : v ∈ s.namesOf wide e := by
    rcases makes.locals v assigned with rfl | ⟨strategy, rfl⟩ | ⟨i, given, rfl⟩
    · exact mem_cons_self
    · obtain ⟨name, same⟩ := Option.isSome_iff_exists.mp (shaped.builderVar strategy)
      exact builder (by simp [Element.builderVars, same])
    · exact builder (by simp [Element.builderVars, given])
  intro v held
  obtain ⟨st, listed, held⟩ := mem_flatMap.mp held
  rcases Statement.mem_vars held with read | assigned
  · obtain ⟨before, after, rfl⟩ := append_of_mem listed
    rcases makes.ready.read read with known | earlier | ⟨_, i, _, given, _, rfl, _⟩
    · exact mem_cons_of_mem _ (mem_append_right _ known)
    · refine own ?_
      rw [flatMap_append]
      exact mem_append_left _ earlier
    · exact builder (by simp [Element.builderVars, given])
  · exact own (mem_flatMap.mpr ⟨st, listed, assigned⟩)

end Scope

/-! ### The order -/

/-- What stands before an element of a list without repetition has a smaller index. -/
theorem idxOf_lt_of_before {order before after : List String} {var other : String}
    (unique : order.Nodup) (split : order = before ++ var :: after) (member : other ∈ before)
    : order.idxOf other < order.idxOf var := by
  subst split
  have absent : var ∉ before := fun there =>
    (nodup_append.mp unique).2.2 var there var mem_cons_self rfl
  rw [idxOf_append_of_mem member, idxOf_append_of_notMem absent, idxOf_cons_self, Nat.add_zero]
  exact idxOf_lt_length_of_mem member

section

open Planning

variable {c : Context} {plan : Plan} {s : State} {scope : Scope} {wide : Bool} {var other : String}
  {e : Element}

theorem needed_lt (made : Made c plan s) (sound : c.Sound) (there : (var, e) ∈ s.elements)
    {source : Source} (member : source ∈ e.sources)
    (needed : other ∈ source.needs plan.registry.get?) (known : other ∈ s.elements.keys)
    : plan.order.idxOf other < plan.order.idxOf var := by
  have listed : var ∈ plan.order := made.ordered.perm.mem_iff.mpr (Table.mem_keys_of_mem there)
  obtain ⟨before, after, split⟩ := append_of_mem listed
  have unique := made.ordered.perm.nodup_iff.mpr made.inv.unique
  refine idxOf_lt_of_before unique split (made.needed_before there member ?_ known split)
  exact source.needs_mono (fun id var found => ((made.registry_iff sound).mp found).1) needed

/-- The elements that the term of a source holds come before the one that reads it, unless their names
are common ones.
-/
theorem reach_lt (made : Made c plan s) (sound : c.Sound) (there : (var, e) ∈ s.elements)
    (same : scope.plan = plan) {source : Source} (member : source ∈ e.sources)
    (held : other ∈ scope.reach wide source) (known : other ∈ s.elements.keys)
    : plan.order.idxOf other < plan.order.idxOf var ∨ other ∈ scope.common wide := by
  rcases mem_append.mp held with common | needed
  · exact .inr common
  · exact .inl (needed_lt made sound there member (same ▸ needed) known)

/-- The elements that the code of an element holds are itself and ones that come before it, unless their
names are common ones.
-/
theorem namesOf_lt (made : Made c plan s) (sound : c.Sound) (there : (var, e) ∈ s.elements)
    (same : scope.plan = plan) (held : other ∈ scope.namesOf wide e) (known : other ∈ s.elements.keys)
    : (other = var ∨ plan.order.idxOf other < plan.order.idxOf var) ∨ other ∈ scope.common wide := by
  rcases mem_cons.mp held with own | held
  · exact .inl (.inl (own.trans (made.own there)))
  rcases mem_append.mp held with builder | held
  · exact (made.private_not_mem ((made.finished there).builders other builder) known).elim
  rcases mem_append.mp held with common | needed
  · exact .inr common
  · obtain ⟨source, member, needed⟩ := mem_flatMap.mp needed
    exact .inl (.inr (needed_lt made sound there member (same ▸ needed) known))

/-- In the narrow sense no element has a common name. -/
theorem not_common_of_key (made : Made c plan s) (known : other ∈ s.elements.keys)
    : other ∉ scope.common false := by
  intro common
  simp only [Scope.common, Bool.false_eq_true, if_false, append_nil] at common
  exact made.inv.not_mem_keys common known

/-- An element with a common name has the other name of a module. -/
theorem renamed_of_common {reserved : List String} (imports : scope.imports = importLines scope.plan)
    (legal : Naming.Legal reserved other) (listed : other ∈ localNames scope.plan)
    (common : other ∈ scope.common true)
    : ∃ line ∈ importLines scope.plan, line.shortName = some other := by
  have builtin : ∀ name ∈ Scope.typeNames, Naming.isBuiltin name = true := by decide
  rcases mem_append.mp common with build | common
  · exact (legal.2.2.2.1 build).elim
  rcases mem_append.mp common with type | imported
  · exact (Bool.false_ne_true (legal.2.2.1.symm.trans (builtin other type))).elim
  · obtain ⟨line, listed', rfl⟩ := mem_map.mp imported
    rw [imports] at listed'
    obtain ⟨bound, renamed⟩ := bound_importLines listed'
    rw [bound] at listed ⊢
    exact ⟨line, listed', renamed listed⟩

end

end Fxml.Code

namespace Fxml

/-- A plan without errors orders all its elements, each after the others whose variables its code reads.
The first part of a dotted name in the code is the variable of another element only if it is the other
name of a module; nothing then says that the element comes before.
-/
theorem Document.order_follows_reads {src path : String} {document : Document}
    {settings : PlanSettings} {module className : String} {diagnostics reports : Diagnostics}
    {known known' : IncludeCache} {plan : Plan}
    (parsed : Document.read src path = .ok document)
    (run : (document.plan settings module className diagnostics).run.run known
      = (.ok (some plan, reports), known'))
    (clean : reports.ok = true)
    : plan.order.Perm plan.elements.keys
      ∧ ∀ var e, (var, e) ∈ plan.elements → ∀ scope : Code.Scope, scope.plan = plan →
          (∀ source ∈ e.sources, ∀ adapter term,
            scope.sourceTerm source = .ok term ∨ scope.handlerTerm adapter source = .ok term →
            ∀ other ∈ term.vars false, other ∈ plan.elements.keys →
              plan.order.idxOf other < plan.order.idxOf var)
          ∧ ∀ statements, scope.elementStatements e = .ok statements →
              (∀ other ∈ statements.flatMap (Code.Statement.vars false), other ∈ plan.elements.keys →
                other = var ∨ plan.order.idxOf other < plan.order.idxOf var)
              ∧ (scope.imports = Code.importLines plan →
                ∀ other ∈ statements.flatMap (Code.Statement.vars true), other ∈ plan.elements.keys →
                  (other = var ∨ plan.order.idxOf other < plan.order.idxOf var)
                  ∨ ∃ line ∈ Code.importLines plan, line.shortName = some other) := by
  obtain ⟨c, s, _, _, _, sound, made⟩ := Document.made_of_plan (nodup_ranks parsed) run clean
  obtain ⟨_, _, s', -, -, -, -, -, lawful, elements', -⟩ :=
    Document.lawful_of_plan (nodup_ranks parsed) run
  have legal : ∀ other ∈ plan.elements.keys, other ∈ Code.localNames plan
      ∧ Naming.Legal (settings.reserved ++ Planning.importedNames document) other := by
    intro other listed
    obtain ⟨e, there⟩ := Table.mem_keys.mp listed
    have own : e.var = other := made.own (made.elements ▸ there)
    have named : other ∈ Code.localNames plan :=
      mem_flatMap.mpr ⟨e, mem_map_of_mem there, own ▸ mem_cons_self⟩
    refine ⟨named, ?_⟩
    rw [Code.localNames, elements'] at named
    obtain ⟨e, there, named⟩ := mem_flatMap.mp named
    exact lawful.legal_of_mem_localsOf there named
  rw [made.elements] at legal ⊢
  refine ⟨made.ordered.perm, fun var e there scope same => ⟨?_, ?_⟩⟩
  · intro source member adapter term emitted other held listed
    refine (Code.reach_lt made sound there same member ?_ listed).resolve_right
      (Code.not_common_of_key made listed)
    exact emitted.elim (fun h => (scope.sourceTerm_spec source).holds term h false held)
      fun h => scope.handlerTerm_vars h held
  · intro statements emitted
    have shaped := (made.finished there).shaped
    refine ⟨fun other held listed => ?_, fun imports other held listed => ?_⟩
    · exact (Code.namesOf_lt made sound there same (scope.elementStatements_vars shaped emitted held)
        listed).resolve_right (Code.not_common_of_key made listed)
    · refine (Code.namesOf_lt made sound there same
        (scope.elementStatements_vars shaped emitted held) listed).imp_right fun common => ?_
      obtain ⟨named, allowed⟩ := legal other listed
      subst same
      exact Code.renamed_of_common imports allowed named common

/-- Boxes with a color whose type stands in the module `a.b`. -/
def colorTypes : TypeSource :=
  Catalog.source [
    ("ui.Box", {
      name := "ui.Box"
      module := "ui"
      constructors := [{}]
      properties := [("color", { name := "color", type := "a.b.Color" }),
        ("children", { name := "children", type := "ui.Box", kind := .list })]
      defaultProperty := some "children" }),
    ("a.b.Color", { name := "a.b.Color", module := "a.b", members := ["RED"] })]

/-- A box `a` with a color, and one with the other name of the color's module as its id. -/
def aliasedBox : String :=
  "<?import ui.*?><Box xmlns:fx=\"http://javafx.com/fxml\">"
    ++ "<Box fx:id=\"a\" color=\"RED\"/><Box fx:id=\"_a_b\"/></Box>"

/-- The code of `a` reads the variable `_a_b`, which is assigned later. -/
theorem Document.order_of_aliasedBox
    : ∃ document plan reports known e statements,
        Document.read aliasedBox "" = .ok document
        ∧ (document.plan { types := colorTypes } "" "" { file := "" }).run.run []
          = (.ok (some plan, reports), known)
        ∧ reports.ok = true
        ∧ plan.order = ["a", "_a_b", "box_1"]
        ∧ ("a", e) ∈ plan.elements
        ∧ Code.Scope.elementStatements { plan, imports := Code.importLines plan } e = .ok statements
        ∧ "_a_b" ∈ statements.flatMap (Code.Statement.vars true)
        ∧ ∃ line ∈ Code.importLines plan, line.shortName = some "_a_b" := by
  let lines : List Code.ImportLine := [⟨"a.b", some "_a_b"⟩, ⟨"ui", none⟩]
  have planned : (cleanPlan? colorTypes aliasedBox).map (fun plan =>
      (plan.order, plan.elements.keys, plan.modules, Code.localNames plan,
        (plan.elements.get? "a").bind fun e =>
          (Code.Scope.elementStatements { plan, imports := lines } e).toOption.map
            (·.flatMap (Code.Statement.vars true))))
      = some (["a", "_a_b", "box_1"], ["box_1", "a", "_a_b"], ["ui", "a.b"], ["box_1", "a", "_a_b"],
        some ["a", "ui", "self", "a", "a", "_a_b"]) := by
    decide +kernel
  obtain ⟨plan, found, same⟩ := Option.map_eq_some_iff.mp planned
  obtain ⟨document, reports, known, parsed, run, clean⟩ := exists_of_cleanPlan? found
  simp only [Prod.mk.injEq] at same
  obtain ⟨order, keys, modules, locals, read⟩ := same
  have imports : Code.importLines plan = lines := by
    rw [Code.importLines, modules, locals]
    cbv
  rw [← imports] at read
  obtain ⟨e, there, read⟩ := Option.bind_eq_some_iff.mp read
  obtain ⟨statements, emitted, vars⟩ := Option.map_eq_some_iff.mp read
  have there := Table.mem_of_get? there
  have emitted := ok_of_toOption emitted
  have held : "_a_b" ∈ statements.flatMap (Code.Statement.vars true) := by
    rw [vars]
    decide
  refine ⟨document, plan, reports, known, e, statements, parsed, run, clean, order, there, emitted, held,
    ?_⟩
  obtain ⟨_, follows⟩ := Document.order_follows_reads parsed run clean
  refine (((follows "a" e there _ rfl).2 statements emitted).2 rfl "_a_b" held ?_).resolve_left ?_
  · rw [keys]
    decide
  · rw [order]
    decide

end Fxml
