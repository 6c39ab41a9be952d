import Fxml.Proofs.Code.Generation
import Fxml.Types.Introspection

/-! How code names the types of a plan. The name of a type is cut behind as many characters as the
module of its class has, so it names the class only if the type goes on there as the class does.
-/

open List Fxml.TypeName Option

namespace Fxml

/-! ### Names and modules of descriptors -/

/-- Two descriptors that name the same class of the same module. -/
def TypeDescriptor.SameClass (d d' : TypeDescriptor) : Prop := d.name = d'.name ∧ d.module = d'.module

theorem TypeDescriptor.SameClass.trans {a b c : TypeDescriptor} (ab : a.SameClass b)
    (bc : b.SameClass c)
    : a.SameClass c :=
  ⟨ab.1.trans bc.1, ab.2.trans bc.2⟩

theorem TypeDescriptor.SameClass.foldl {α : Type} {f : TypeDescriptor → α → TypeDescriptor}
    (step : ∀ d a, (f d a).SameClass d) (items : List α) (d : TypeDescriptor)
    : (items.foldl f d).SameClass d := by
  induction items generalizing d with
  | nil => exact ⟨rfl, rfl⟩
  | cons a rest ih => exact (ih (f d a)).trans (step d a)

namespace Catalog

variable {types : Table TypeDescriptor} {d : TypeDescriptor} {name : String}

theorem name_of_inherit {seen : List String} (h : inherit types seen name = .ok (some d))
    : d.name = name := by
  rw [inherit] at h
  split at h
  · cases h
  split at h
  · cases h
  obtain ⟨inherited, bases, last⟩ := exists_of_bind_ok h
  cases last
  show inherited.name = name
  refine of_foldlM_ok (motive := fun _ (d : TypeDescriptor) => d.name = name)
    (fun {_ below base next} same step => ?_) [] rfl bases
  obtain ⟨parent, _, step⟩ := exists_of_bind_ok step
  cases parent <;> cases step <;> exact same

theorem name_of_inheritAll {entries : Table TypeDescriptor} (h : inheritAll entries = .ok types)
    (found : types.get? name = some d)
    : d.name = name := by
  obtain ⟨all, described, kept⟩ := exists_of_bind_ok h
  cases kept
  obtain ⟨⟨key, own⟩, member, same⟩ := mem_filterMap.mp (Table.mem_of_get? found)
  obtain ⟨d', rfl, same⟩ := map_eq_some_iff.mp same
  cases same
  obtain ⟨key, _, inherited⟩ := mem_of_mapM_ok described _ member
  obtain ⟨own, inherited, same⟩ := exists_of_bind_ok inherited
  cases same
  exact name_of_inherit inherited

end Catalog

namespace ClassWorld

variable {w : ClassWorld} {modules : List ModuleModel}

theorem sameClass_addStatic (module : Option ModuleModel) (d : TypeDescriptor) (name : String)
    (params : List FunctionParam) (returns : TypeHint) (isStatic : Bool)
    : (w.addStatic module d name params returns isStatic).SameClass d := by
  unfold addStatic
  dsimp only
  split
  · exact ⟨rfl, rfl⟩
  split
  · exact ⟨rfl, rfl⟩
  · split <;> exact ⟨rfl, rfl⟩

/-- The members of a class body say nothing about its name. -/
theorem sameClass_addMember (module : Option ModuleModel) (hints : Table TypeHint) (isEnum : Bool)
    (d : TypeDescriptor) (entry : String × ClassMember)
    : (w.addMember module hints isEnum d entry).SameClass d := by
  obtain ⟨name, member⟩ := entry
  unfold addMember
  dsimp only
  split
  · exact ⟨rfl, rfl⟩
  cases member with
  | staticMethod params returns => exact sameClass_addStatic ..
  | classMethod params returns => exact sameClass_addStatic ..
  | constant type =>
    dsimp only
    split <;> exact ⟨rfl, rfl⟩
  | _ => exact ⟨rfl, rfl⟩

theorem sameClass_addClass (isEnum : Bool) (d : TypeDescriptor) (c : ClassInfo)
    : (w.addClass isEnum d c).SameClass d := by
  unfold addClass
  refine (TypeDescriptor.SameClass.foldl (sameClass_addMember _ _ isEnum) c.members _).trans ?_
  exact TypeDescriptor.SameClass.foldl (fun _ ⟨_, _⟩ => ⟨rfl, rfl⟩) _ d

theorem qualifiedName_of_get? {name : String} {c : ClassInfo}
    (found : (ofModules modules).classes.get? name = some c)
    : name = c.module ++ "." ++ c.path := by
  obtain ⟨sound, _⟩ := Table.mem_foldl_put
    ((modules.flatMap fun m => ClassModel.flattenAll m.name "" m.classes).map fun c =>
      (c.qualifiedName, c)) []
  obtain ⟨c', _, same⟩ :=
    mem_map.mp ((sound name c (Table.mem_of_get? found)).resolve_right nofun)
  cases same
  rfl

theorem name_describeClass (name : String)
    : (w.describeClass name).name = name
      ∧ (w.describeClass name).module
        = ((w.classes.get? name).map (·.module)).getD (describeClass.builtinModule name) := by
  unfold describeClass
  generalize w.orderOf name = order
  have kept := TypeDescriptor.SameClass.foldl (sameClass_addClass (w := w) (order.contains "enum.Enum"))
    (order.filterMap w.classes.get?).reverse
  cases found : w.classes.get? name with
  | some c => exact kept _
  | none => exact kept _

/-- The name of a class goes on behind its module, unless the language itself has the class. -/
theorem exists_path_of_module {name module : String}
    (described : ((ofModules modules).describeClass name).module = module)
    (foreign : module ≠ "builtins")
    : ∃ path, name = module ++ "." ++ path := by
  rw [(name_describeClass name).2] at described
  cases found : (ofModules modules).classes.get? name with
  | some c =>
    rw [found] at described
    cases described
    exact ⟨c.path, qualifiedName_of_get? found⟩
  | none =>
    rw [found, map_none, getD_none] at described
    unfold describeClass.builtinModule at described
    split at described
    · exact ⟨"Enum", described ▸ rfl⟩
    · exact ⟨"Any", described ▸ rfl⟩
    · exact (foreign described.symm).elim

end ClassWorld

/-- The sources that answer from a table of entries, each with what it inherits. -/
def TypeSource.FromCatalog (types : TypeSource) : Prop :=
  ∃ entries all, Catalog.inheritAll entries = .ok all ∧ types = Catalog.source all

/-- The sources that answer from the classes of modules. -/
def TypeSource.FromClasses (types : TypeSource) : Prop :=
  ∃ modules, types = (ClassWorld.ofModules modules).source

theorem TypeSource.FromCatalog.name_eq {types : TypeSource} (h : types.FromCatalog) {type : String}
    {d : TypeDescriptor} (plain : isPrimitive type = false)
    (described : types.describe type = some d)
    : d.name = type := by
  obtain ⟨entries, all, inherited, rfl⟩ := h
  simp only [Catalog.source, plain, Bool.false_eq_true, if_false] at described
  exact Catalog.name_of_inheritAll inherited described

theorem TypeSource.FromClasses.exists_path {types : TypeSource} (h : types.FromClasses)
    {type : String} {d : TypeDescriptor} (plain : isPrimitive type = false)
    (described : types.describe type = some d) (foreign : d.module ≠ "builtins")
    : ∃ path, d.name = d.module ++ "." ++ path := by
  obtain ⟨modules, rfl⟩ := h
  simp only [ClassWorld.source, plain, Bool.false_eq_true, if_false] at described
  obtain ⟨name, _, rfl⟩ := map_eq_some_iff.mp described
  rw [(ClassWorld.name_describeClass name).1]
  exact ClassWorld.exists_path_of_module rfl foreign

/-! ### Names in code -/

namespace Code

open Planning

variable {c : Context} {plan : Plan} {s : State}

/-- What is cut from the front of a type is put back exactly when it is its module and a dot. -/
theorem module_append_drop_iff {module type : String}
    : module ++ "." ++ String.ofList (type.toList.drop (module.length + 1)) = type
      ↔ (module ++ ".").toList <+: type.toList := by
  have front : (module ++ ".").toList.length = module.length + 1 := by simp [String.length_toList]
  rw [prefix_iff_eq_append, front, ← String.toList_inj]
  simp

/-- A type that code can name is named by the reference of its module and what follows as many
characters as the module and a dot have.
-/
theorem typeTerm_eq (made : Made c plan s) {type : String} (member : type ∈ plan.types)
    (noPrimitive : isPrimitive type = false) (noList : listItem? type = none)
    (noMap : mapTypes? type = none) (named : (start plan).Names type) (pos : Position)
    : ∃ d line,
        c.types.describe type = some d
        ∧ d.module ≠ "builtins"
        ∧ line ∈ importLines plan
        ∧ line.module = d.module
        ∧ (start plan).typeTerm type pos
          = .ok (.global (line.reference ++ "."
              ++ String.ofList (type.toList.drop (d.module.length + 1)))) := by
  have noted := get?_moduleOf made member noList noMap
  obtain ⟨module, found, imported⟩ : ∃ module, plan.moduleOf.get? type = some module
      ∧ ((start plan).moduleReference? module).isSome = true := by
    simpa [Scope.Names, noPrimitive, noList, noMap, start] using named
  obtain ⟨reference, referred⟩ := isSome_iff_exists.mp imported
  obtain ⟨line, listed, rfl⟩ := map_eq_some_iff.mp referred
  obtain ⟨d, described, rfl, foreign⟩ : ∃ d, c.types.describe type = some d
      ∧ d.module = module ∧ d.module ≠ "builtins" := by
    rw [noted, moduleOf?] at found
    split at found
    · cases found
    · cases found
    · rename_i other given
      cases found
      obtain ⟨d, described, rfl⟩ := map_eq_some_iff.mp given
      exact ⟨d, described, rfl, other⟩
  refine ⟨d, line, described, foreign, mem_of_find?_eq_some listed, ?_, ?_⟩
  · simpa using find?_some listed
  · simp [Scope.typeTerm, noPrimitive, noList, noMap, show (start plan).plan = plan from rfl, found,
      referred]

end Code

open Planning

/-- Code refers to a type through the import of its module. With the module in place of the
reference, the text is the name of the described class exactly when, in a table, the type starts
with its module and a dot and, among classes, the type ends as the class does in its module: the
name of the class itself always does.
-/
theorem Document.typeTerm_denotes_iff {src path : String} {document : Document}
    {settings : PlanSettings} {module className : String} {diagnostics reports : Diagnostics}
    {known known' : IncludeCache} {plan : Plan} {code : Code.Module}
    (parsed : Document.read src path = .ok document)
    (run : (document.plan settings module className diagnostics).run.run known
      = (.ok (some plan, reports), known'))
    (clean : reports.ok = true) (generated : Code.generate plan = .ok code)
    {type : String} (used : type ∈ plan.types)
    (noPrimitive : TypeName.isPrimitive type = false)
    (noList : TypeName.listItem? type = none) (noMap : TypeName.mapTypes? type = none)
    (pos : Position)
    : ∃ d line inner,
        settings.types.describe type = some d
        ∧ line ∈ code.imports
        ∧ line.module = d.module
        ∧ ((Code.start plan).typeTerm type pos).map Code.Term.text
          = .ok (line.reference ++ "." ++ inner)
        ∧ (settings.types.FromCatalog
          → d.name = type
            ∧ (line.module ++ "." ++ inner = d.name
              ↔ (d.module ++ ".").toList <+: type.toList))
        ∧ (settings.types.FromClasses
          → ∃ place, d.name = d.module ++ "." ++ place
            ∧ (line.module ++ "." ++ inner = d.name
              ↔ type.toList.drop (d.module.length + 1) = place.toList)
            ∧ (type = d.name → line.module ++ "." ++ inner = d.name)) := by
  obtain ⟨c, s, same, types, registry, sound, made⟩ :=
    Document.made_of_plan (nodup_ranks parsed) run clean
  obtain ⟨_, _, named⟩ := (Code.generate_iff made sound).mp ⟨code, generated⟩
  obtain ⟨d, line, described, foreign, listed, owner, term⟩ :=
    Code.typeTerm_eq made used noPrimitive noList noMap (named type used) pos
  rw [types] at described
  have listed : line ∈ code.imports := Code.imports_of_generate generated ▸ listed
  refine ⟨d, line, _, described, listed, owner, congrArg (Except.map _) term, ?_, ?_⟩
  · intro catalog
    have own := catalog.name_eq noPrimitive described
    rw [owner, own]
    exact ⟨rfl, Code.module_append_drop_iff⟩
  · intro classes
    obtain ⟨place, own⟩ := classes.exists_path noPrimitive described foreign
    have continues : line.module ++ "."
          ++ String.ofList (type.toList.drop (d.module.length + 1)) = d.name
        ↔ type.toList.drop (d.module.length + 1) = place.toList := by
      rw [owner, own, ← String.toList_inj]
      simp
    refine ⟨place, own, continues, fun qualified => ?_⟩
    rw [owner, ← qualified, Code.module_append_drop_iff, qualified, own,
      String.toList_append (t := place)]
    exact prefix_append _ _

/-- A button that is also known under the name of another module. -/
def facadeTypes : TypeSource :=
  (ClassWorld.ofModules [
    { name := "impl"
      classes := [.mk "Button" [] [] [] [] none none none none none []] },
    { name := "facade", aliases := [("Button", "impl.Button")] }]).source

/-- The code of a document that uses a class under its second name does not name the class. -/
theorem Document.facade_misnamed
    : ∃ document plan reports known code d line inner,
        Document.read "<?import facade.Button?><Button/>" "" = .ok document
        ∧ (document.plan { types := facadeTypes } "" "" { file := "" }).run.run []
          = (.ok (some plan, reports), known)
        ∧ reports.ok = true
        ∧ Code.generate plan = .ok code
        ∧ "facade.Button" ∈ plan.types
        ∧ facadeTypes.describe "facade.Button" = some d
        ∧ d.name = "impl.Button"
        ∧ line ∈ code.imports
        ∧ line.module = d.module
        ∧ ((Code.start plan).typeTerm "facade.Button" ⟨1, 1⟩).map Code.Term.text
          = .ok (line.reference ++ "." ++ inner)
        ∧ line.module ++ "." ++ inner ≠ d.name := by
  have planned : (cleanPlan? facadeTypes "<?import facade.Button?><Button/>").map
      (fun plan => ((Code.generate plan).isOk, decide ("facade.Button" ∈ plan.types)))
      = some (true, true) := by
    decide +kernel
  have own : (facadeTypes.describe "facade.Button").map (fun d => (d.name, d.module))
      = some ("impl.Button", "impl") := by
    decide +kernel
  obtain ⟨plan, found, made⟩ := map_eq_some_iff.mp planned
  obtain ⟨document, reports, known, parsed, run, clean⟩ := exists_of_cleanPlan? found
  obtain ⟨generated, used⟩ := Prod.mk.inj made
  obtain ⟨code, generated⟩ := exists_of_isOk generated
  have used := of_decide_eq_true used
  obtain ⟨d, line, inner, described, listed, owner, term, _, classes⟩ :=
    Document.typeTerm_denotes_iff parsed run clean generated used (by decide) (by decide)
      (by decide) ⟨1, 1⟩
  rw [described, map_some, some.injEq, Prod.mk.injEq] at own
  refine ⟨document, plan, reports, known, code, d, line, inner, parsed, run, clean, generated, used,
    described, own.1, listed, owner, term, fun right => ?_⟩
  obtain ⟨place, name, denotes, _⟩ := classes ⟨_, rfl⟩
  have place_eq := denotes.mp right
  rw [own.2] at place_eq name
  rw [own.1, ← String.ofList_toList (s := place), ← place_eq] at name
  exact absurd name (by decide)

end Fxml
