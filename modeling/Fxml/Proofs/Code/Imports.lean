import Fxml.Proofs.Code.Emission
import Fxml.Proofs.Planning.LocalNames

/-! The names that the imports of a generated module bind. A module is known by another name when a
variable has the name of its first part, but that name may in turn be a variable or stand for two
modules.
-/

open List Fxml.Naming

namespace Fxml

open Planning

namespace Code

/-! ### Import lines -/

/-- The parameters of the generated method. -/
def parameters : List String := ["self", "controller", "root", "resources", "controller_factory"]

variable {p : Plan} {module other : String}

theorem renamed_mem_importLines (listed : module ∈ p.modules) (shadowed : Shadowed p module)
    : ⟨module, some (otherName module)⟩ ∈ importLines p :=
  mem_importLines.mpr (.inl ⟨listed, shadowed, rfl⟩)

theorem plain_mem_importLines (listed : module ∈ p.modules) (plain : ¬Shadowed p module)
    : ⟨module, none⟩ ∈ importLines p :=
  mem_importLines.mpr (.inr ⟨listed, plain, rfl⟩)

theorem otherName_not_mem_buildNames (module : String) : otherName module ∉ buildNames := by
  have first : (otherName module).toList.head? = some '_' := by
    simp [otherName_eq]
  intro member
  have none_starts : ∀ name ∈ buildNames, name.toList.head? ≠ some '_' := by decide
  exact none_starts _ member first

/-- Modules have the same other name when they differ in dots and underscores only. -/
theorem otherName_inj
    : otherName module = otherName other
      ↔ module.toList.map (fun c => if c = '.' then '_' else c)
        = other.toList.map (fun c => if c = '.' then '_' else c) := by
  simp only [otherName_eq, String.ofList_inj, cons.injEq, true_and]

/-! ### Names that are bound -/

section

variable (free : ∀ name ∈ localNames p, name ∉ buildNames)
include free

/-- A module whose first part is a name of the method's own is known by its own name. -/
theorem not_shadowed_of_mem_buildNames (kept : firstPart module ∈ buildNames)
    : ¬Shadowed p module :=
  fun shadowed => free _ shadowed kept

/-- Imports bind none of the method's own names in a list exactly when no first part is one. -/
theorem bound_avoids_iff {names : List String} (own : names ⊆ buildNames)
    : (∀ line ∈ importLines p, line.bound ∉ names)
      ↔ ∀ module ∈ p.modules, firstPart module ∉ names := by
  constructor
  · intro all module listed kept
    have plain := not_shadowed_of_mem_buildNames free (own kept)
    exact all _ (plain_mem_importLines listed plain) kept
  · intro all line member kept
    rcases mem_importLines.mp member with ⟨listed, -, short⟩ | ⟨listed, -, short⟩
    · rw [ImportLine.bound, short] at kept
      exact otherName_not_mem_buildNames _ (own kept)
    · rw [ImportLine.bound, short] at kept
      exact all _ listed kept

omit free in
/-- Imports bind no variable exactly when no other name of a module is one. -/
theorem bound_not_local_iff
    : (∀ line ∈ importLines p, line.bound ∉ localNames p)
      ↔ ∀ module ∈ p.modules, Shadowed p module → otherName module ∉ localNames p := by
  constructor
  · intro all module listed shadowed
    exact all _ (renamed_mem_importLines listed shadowed)
  · intro all line member kept
    rcases mem_importLines.mp member with ⟨listed, shadowed, short⟩ | ⟨-, plain, short⟩
    · rw [ImportLine.bound, short] at kept
      exact all _ listed shadowed kept
    · rw [ImportLine.bound, short] at kept
      exact plain kept

end

/-- Each module has a reference of its own exactly when the other names are different and no module
that keeps its name has one of them.
-/
theorem reference_inj_iff
    : (∀ line ∈ importLines p, ∀ line' ∈ importLines p,
          line.reference = line'.reference → line.module = line'.module)
      ↔ ∀ module ∈ p.modules, Shadowed p module → ∀ other ∈ p.modules,
          (Shadowed p other → otherName module = otherName other → module = other)
          ∧ (¬Shadowed p other → otherName module ≠ other) := by
  constructor
  · intro all module listed shadowed other listed'
    have here := renamed_mem_importLines listed shadowed
    refine ⟨fun shadowed' same => ?_, fun plain same => ?_⟩
    · exact all _ here _ (renamed_mem_importLines listed' shadowed') same
    · have same : module = other := all _ here _ (plain_mem_importLines listed' plain) same
      exact plain (same ▸ shadowed)
  · intro all line member line' member' same
    rcases mem_importLines.mp member with ⟨listed, shadowed, short⟩ | ⟨listed, plain, short⟩
    all_goals
      rcases mem_importLines.mp member' with ⟨listed', shadowed', short'⟩ | ⟨listed', plain', short'⟩
      all_goals rw [ImportLine.reference, ImportLine.reference, short, short'] at same
    · exact (all _ listed shadowed _ listed').1 shadowed' same
    · exact ((all _ listed shadowed _ listed').2 plain' same).elim
    · exact ((all _ listed' shadowed' _ listed).2 plain same.symm).elim
    · exact same

end Code

/-- Imports in the code of a document. No import binds a parameter exactly when no module has one
for its first part, and none binds a variable exactly when that is so of the other names that
modules are given. The support library is bound again exactly when a module has its name for a first
part. Modules share a reference exactly when both are known by other names which differ in dots and
underscores only, or one of them has the other's other name. A module whose first part is imported
by the document or reserved is known by its own name, which no variable has.
-/
theorem Document.imports_unshadowed_iff {src path : String} {document : Document}
    {settings : PlanSettings} {module className : String} {diagnostics reports : Diagnostics}
    {known known' : IncludeCache} {plan : Plan} {code : Code.Module}
    (parsed : Document.read src path = .ok document)
    (run : (document.plan settings module className diagnostics).run.run known
      = (.ok (some plan, reports), known'))
    (generated : Code.generate plan = .ok code)
    : ((∀ line ∈ code.imports, line.bound ∉ Code.parameters)
        ↔ ∀ module ∈ plan.modules, firstPart module ∉ Code.parameters)
      ∧ ((∀ line ∈ code.imports, line.bound ∉ Code.localNames plan)
        ↔ ∀ module ∈ plan.modules,
            firstPart module ∈ Code.localNames plan
            → Code.otherName module ∉ Code.localNames plan)
      ∧ ((∀ line ∈ code.imports, line.bound ≠ "runtime")
        ↔ ∀ module ∈ plan.modules, firstPart module ≠ "runtime")
      ∧ ((∀ line ∈ code.imports, ∀ line' ∈ code.imports,
            line.reference = line'.reference → line.module = line'.module)
        ↔ ∀ module ∈ plan.modules, firstPart module ∈ Code.localNames plan
            → ∀ other ∈ plan.modules,
                (firstPart other ∈ Code.localNames plan
                  → module.toList.map (fun c => if c = '.' then '_' else c)
                    = other.toList.map (fun c => if c = '.' then '_' else c)
                  → module = other)
                ∧ (firstPart other ∉ Code.localNames plan → Code.otherName module ≠ other))
      ∧ ∀ line ∈ code.imports,
          firstPart line.module ∈ settings.reserved ++ importedNames document
          → line.shortName = none ∧ line.bound ∉ Code.localNames plan := by
  obtain ⟨c, r, s, -, -, -, -, -, lawful, elements, -⟩ :=
    Document.lawful_of_plan (Document.nodup_ranks parsed) run
  have legal : ∀ name ∈ Code.localNames plan,
      Legal (settings.reserved ++ importedNames document) name := by
    intro name member
    rw [Code.localNames, elements] at member
    obtain ⟨e, there, named⟩ := mem_flatMap.mp member
    exact lawful.legal_of_mem_localsOf there named
  have free : ∀ name ∈ Code.localNames plan, name ∉ buildNames :=
    fun name member => (legal name member).2.2.2.1
  have runtime : (∀ line ∈ Code.importLines plan, line.bound ≠ "runtime")
      ↔ ∀ module ∈ plan.modules, firstPart module ≠ "runtime" := by
    simpa using Code.bound_avoids_iff free (show ["runtime"] ⊆ buildNames by decide)
  rw [Code.imports_of_generate generated]
  refine ⟨Code.bound_avoids_iff free (by decide), Code.bound_not_local_iff, runtime, ?_,
    fun line member kept => ?_⟩
  · rw [Code.reference_inj_iff]
    simp only [Code.otherName_inj, Code.Shadowed]
  · rcases Code.mem_importLines.mp member with ⟨-, shadowed, -⟩ | ⟨-, plain, short⟩
    · exact ((legal _ shadowed).2.2.2.2 kept).elim
    · refine ⟨short, ?_⟩
      rw [Code.ImportLine.bound, short]
      exact plain

/-- Boxes in a module that has the name of a parameter. -/
def rootTypes : TypeSource :=
  Catalog.source [("root.Box", { name := "root.Box", module := "root", constructors := [{}] })]

/-- In the method that makes the box, the name of its module is that of a parameter. -/
theorem Document.import_binds_parameter
    : ∃ document plan reports known code,
        Document.read "<?import root.*?><Box/>" "" = .ok document
        ∧ (document.plan { types := rootTypes } "" "" { file := "" }).run.run []
          = (.ok (some plan, reports), known)
        ∧ reports.ok = true
        ∧ Code.generate plan = .ok code
        ∧ ¬∀ line ∈ code.imports, line.bound ∉ Code.parameters := by
  have planned : (cleanPlan? rootTypes "<?import root.*?><Box/>").map (fun plan =>
        ((Code.generate plan).isOk, plan.modules))
      = some (true, ["root"]) := by
    decide +kernel
  obtain ⟨plan, found, same⟩ := Option.map_eq_some_iff.mp planned
  obtain ⟨document, reports, known, parsed, run, clean⟩ := exists_of_cleanPlan? found
  obtain ⟨made, modules⟩ := Prod.mk.inj same
  obtain ⟨code, generated⟩ := exists_of_isOk made
  refine ⟨document, plan, reports, known, code, parsed, run, clean, generated, ?_⟩
  rw [(Document.imports_unshadowed_iff parsed run generated).1, modules]
  decide

end Fxml
