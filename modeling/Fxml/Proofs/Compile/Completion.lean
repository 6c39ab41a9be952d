import Fxml.Compile.Document
import Fxml.Proofs.Document.Ranks
import Fxml.Proofs.Planning.Consistency

/-! When a compilation brings a unit. A document without errors has a plan, and a plan without
errors becomes a unit unless code generation reports an error of its own.
-/

namespace Fxml

/-! ### The plan of a document -/

namespace Planning

variable {c : Context} {s : State}

theorem planNode_isSome (sound : c.Sound) (root : Document.IsRoot c.document.root)
    : Plans c [] (planNode c.document.root) s fun found _ => found.isSome = true := by
  have grounded : IsElement c.document.root ∧ c.Grounded c.document.root := by
    cases node : c.document.root with
    | object => exact ⟨trivial, .object ..⟩
    | constant => exact ⟨trivial, .constant ..⟩
    | property | staticProperty | define | reference | copy | inclusion =>
      rw [node] at root
      exact root.elim
  refine (planNode_plans sound c.document.root fun node member =>
    placed_definition_subset c.document.root member).imp fun found t _ after => ?_
  cases found with
  | none => exact (after.holds.missing rfl grounded.1 grounded.2).elim
  | some => rfl

theorem planDocument_isSome (sound : c.Sound) (root : Document.IsRoot c.document.root)
    (module className : String)
    : Plans c [] (planDocument module className) s fun found _ => found.isSome = true := by
  unfold planDocument
  rw [plans_read_bind]
  refine (planNode_isSome sound root).bind fun found t planned => ?_
  cases found with
  | none => exact plans_pure.mpr fun clean _ => (planned clean).holds
  | some root =>
    exact assemble_plans.bind fun plan u _ => plans_pure.mpr fun _ _ => rfl

end Planning

open Planning

theorem Document.not_ok_of_no_plan {src path : String} {document : Document}
    (parsed : Document.read src path = .ok document) {settings : PlanSettings}
    {module className : String} {diagnostics reports : Diagnostics} {known known' : IncludeCache}
    (run : (document.plan settings module className diagnostics).run.run known
      = (.ok (none, reports), known'))
    : reports.ok = false := by
  obtain ⟨c, r, ds, s, registration, _, rfl, _, registry, yields, rfl⟩ := Document.plan_yields run
  have ranks := Document.nodup_ranks parsed
  have registered := (registered_start _ _).run ranks registration
  rw [List.nil_append] at registered
  obtain ⟨sound, start⟩ := registered.start registry ranks ds
  by_contra ok
  have planned := planDocument_isSome sound (Document.isRoot_of_read parsed) module className
    (fun _ => start) _ _ yields (Bool.eq_true_of_not_eq_false ok)
  cases planned.holds

/-! ### The unit of a document -/

namespace CompileResult

/-- There is a unit exactly when nothing is wrong and the document asks to be compiled. -/
def Complete (r : CompileResult) : Prop :=
  r.unit.isSome = true ↔ r.ok = true ∧ r.skipped = false

theorem complete_of_failed {r : CompileResult} (failed : r.ok = false) (none : r.unit = none)
    : r.Complete := by
  simp [Complete, failed, none]

end CompileResult

namespace CompileSettings

open CompileResult

variable {r : CompileResult} {known known' : IncludeCache}

theorem ok_addFault (ds : Diagnostics) (fault : Fault) : (ds.addFault fault).ok = false := by
  have grave : fault.severity ≠ .warning := by
    unfold Fault.severity
    split <;> simp
  simp [Diagnostics.addFault, Diagnostics.add, Diagnostics.ok, Diagnostic.isError, grave]

theorem generateUnit_complete {result : CompileResult} {plan : Plan} (ok : result.ok = true)
    (kept : result.skipped = false) (fresh : result.unit = none)
    (run : (generateUnit result plan).run.run known = (.ok r, known'))
    : r.Complete := by
  unfold generateUnit at run
  split at run
  · split at run
    · cases run
      exact iff_of_true rfl ⟨ok, kept⟩
    · cases run
  · split at run
    · cases run
      exact complete_of_failed (ok_addFault _ _) fresh
    · cases run

theorem compileParsed_complete (s : CompileSettings) {src path : String} {document : Document}
    (parsed : Document.read src path = .ok document)
    {loader : Option (String → Lookup (Except IncludeFault IncludeTarget))}
    {diagnostics : Diagnostics}
    (run : (s.compileParsed .generate document loader diagnostics).run.run known = (.ok r, known'))
    : r.Complete := by
  unfold compileParsed at run
  rw [ExceptT.run_bind, StateT.run_bind] at run
  rcases planned : (document.plan
      { types := s.types, resources := s.resources, loader, reserved := s.reserved }
      (Path.moduleName document.path s.package) (Path.className document.path)
      diagnostics).run.run known with ⟨_ | ⟨plan, reports⟩, between⟩
  · rw [planned] at run
    cases run
  · rw [planned] at run
    cases plan with
    | none =>
      cases run
      exact complete_of_failed (Document.not_ok_of_no_plan parsed planned) rfl
    | some plan =>
      change (if reports.ok && Stage.generate != .resolve then
          generateUnit { path := document.path, diagnostics := reports, plan } plan
        else pure { path := document.path, diagnostics := reports, plan }
          : Lookup CompileResult).run.run between = _ at run
      cases ok : reports.ok with
      | true =>
        rw [ok] at run
        refine generateUnit_complete ?_ rfl rfl run
        exact ok
      | false =>
        rw [ok] at run
        cases run
        exact complete_of_failed ok rfl

/-- There is a unit exactly when the reports are ok and the document is not skipped. A document
whose root has no plan is reported in any case.
-/
theorem unit_isSome_iff (s : CompileSettings) (generates : s.stopAt = .generate)
    {path text : String} (run : (s.compile path text).run.run known = (.ok r, known'))
    : (r.unit.isSome = true ↔ r.ok = true ∧ r.skipped = false)
      ∧ ∀ document, Document.read text path = .ok document
        → ∀ settings module className diagnostics reports known known',
            (document.plan settings module className diagnostics).run.run known
              = (.ok (none, reports), known')
            → reports.ok = false := by
  refine ⟨?_, fun document parsed _ _ _ _ _ _ _ => Document.not_ok_of_no_plan parsed⟩
  rw [compile, generates, compileWithin] at run
  split at run
  · cases run
  · cases run
    exact complete_of_failed (ok_addFault _ _) rfl
  · rename_i document parsed
    dsimp only at run
    split at run
    · cases run
      exact iff_of_false Bool.false_ne_true (fun fine => Bool.false_ne_true fine.2.symm)
    · exact compileParsed_complete s parsed run

/-- What is observed of an outcome belongs to a result. -/
theorem exists_of_outcome {α β : Type} {x : Lookup α} {f : α → β} {b : β}
    (h : (x.run.run known).1.toOption.map f = some b)
    : ∃ a known', x.run.run known = (.ok a, known') ∧ f a = b := by
  rcases run : x.run.run known with ⟨_ | a, known'⟩
  · rw [run] at h
    cases h
  · rw [run] at h
    exact ⟨a, known', rfl, Option.some.inj h⟩

/-- A box in a box gives a unit; a box with an unknown child gives none. -/
theorem unit_of_boxes
    : ∃ fine failed known known',
        (compile { types := boxTypes } "a.fxml" "<?import ui.*?><Box><Box title=\"x\"/></Box>").run.run []
          = (.ok fine, known)
        ∧ (compile { types := boxTypes } "a.fxml" "<?import ui.*?><Box><Bag/></Box>").run.run []
          = (.ok failed, known')
        ∧ fine.unit.isSome = true
        ∧ failed.unit.isSome = false := by
  have fine : (((compile { types := boxTypes } "a.fxml"
      "<?import ui.*?><Box><Box title=\"x\"/></Box>").run.run []).1.toOption.map
        fun r => (r.ok, r.skipped)) = some (true, false) := by
    decide +kernel
  have failed : (((compile { types := boxTypes } "a.fxml"
      "<?import ui.*?><Box><Bag/></Box>").run.run []).1.toOption.map
        fun r => (r.ok, r.skipped)) = some (false, false) := by
    decide +kernel
  obtain ⟨r, known, run, good⟩ := exists_of_outcome fine
  obtain ⟨r', known', run', wrong⟩ := exists_of_outcome failed
  refine ⟨r, r', known, known', run, run', ?_, ?_⟩
  · exact (unit_isSome_iff _ rfl run).1.mpr (Prod.mk.inj good)
  · have made := (unit_isSome_iff _ rfl run').1
    have bad : r'.ok = false := congrArg Prod.fst wrong
    simpa [bad] using made

end CompileSettings

end Fxml
