import Fxml.Proofs.Code.Emission
import Fxml.Proofs.Document.Ranks
import Fxml.Proofs.Planning.Consistency

/-! When a plan without errors becomes code: exactly when every id that is read has its node placed
and grounded and every type that is named can be imported.
-/

open List Fxml.TypeName Option

namespace Fxml

/-! ### What the code of a plan needs -/

/-- The variables that a binding refers to. -/
def Binding.needs (varOf : String → Option String) (b : Binding) : List String :=
  (b.value.references.filter (!·.isController)).filterMap (varOf ·.name)

/-- A variable that some source of an element or some binding needs. -/
def Plan.Reads (p : Plan) (varOf : String → Option String) (var : String) : Prop :=
  (∃ e ∈ p.elements.values, ∃ source ∈ e.sources, var ∈ source.needs varOf)
    ∨ ∃ b ∈ p.bindings, var ∈ b.needs varOf

/-- The types that the code of a plan names. -/
def Plan.types (p : Plan) : List String :=
  (p.controller.map (·.type)).toList ++ p.elements.values.flatMap Element.types

/-- A type that code can name: a primitive or collection type, or one that has a module. -/
def TypeSource.Importable (types : TypeSource) (type : String) : Prop :=
  isPrimitive type = true
    ∨ (listItem? type).isSome = true
    ∨ (mapTypes? type).isSome = true
    ∨ (Planning.moduleOf? types type).isSome = true

def Document.varOf (document : Document) (reserved : List String) (id : String) : Option String :=
  ((document.ids reserved).get? id).map (·.var)

namespace Planning

variable {c : Context} {plan : Plan} {s : State}

/-! ### Types -/

theorem namedType?_of_plain {type : String} (noList : listItem? type = none)
    (noMap : mapTypes? type = none)
    : namedType? type = some type := by
  rw [namedType?]
  split
  · rename_i item found
    cases noList.symm.trans found
  · simp [noMap]

theorem get?_typeModules (types : TypeSource) {controller : Option TypeDescriptor}
    {elements : Table Element} {type : String} (plain : namedType? type = some type)
    (member : type ∈ controller.toList.map (·.name) ++ elements.values.flatMap Element.types)
    : (typeModules types controller elements).get? type = moduleOf? types type := by
  unfold typeModules
  refine Table.get?_ofList (fun name module listed => ?_) fun module found => ?_
  · obtain ⟨_, _, found⟩ := mem_filterMap.mp listed
    obtain ⟨_, found, same⟩ := map_eq_some_iff.mp found
    cases same
    exact found
  · refine mem_filterMap.mpr ⟨type, mem_filterMap.mpr ⟨type, member, plain⟩, ?_⟩
    rw [found]
    rfl

end Planning

namespace Code

open Planning

variable {c : Context} {plan : Plan} {s : State} {before after : List String} {var type : String}
  {source : Source} {e : Element}

def start (p : Plan) : Scope := { plan := p, imports := importLines p }

theorem moduleReference?_isSome {module : String} (h : module ∈ plan.modules)
    : ((start plan).moduleReference? module).isSome = true := by
  have listed : ∃ line ∈ importLines plan, line.module = module := by
    refine ⟨_, mem_map.mpr ⟨module, mem_mergeSort.mpr h, rfl⟩, ?_⟩
    split <;> rfl
  obtain ⟨line, there, same⟩ := listed
  unfold Scope.moduleReference?
  rw [isSome_map, find?_isSome]
  exact ⟨line, there, by simp [same]⟩

/-- A type that a plan names and that is neither list nor map stands in it with its module. -/
theorem get?_moduleOf (made : Made c plan s) (member : type ∈ plan.types)
    (noList : listItem? type = none) (noMap : mapTypes? type = none)
    : plan.moduleOf.get? type = moduleOf? c.types type := by
  obtain ⟨root, assembled⟩ := made.assembled
  rw [assembled.moduleOf]
  refine get?_typeModules _ (namedType?_of_plain noList noMap) ?_
  rw [Plan.types, assembled.controller, assembled.elements] at member
  cases controller : c.controller <;> simpa [controller] using member

/-- The types that a plan names have names in the code exactly when they can be imported. -/
theorem names_iff (made : Made c plan s) (member : type ∈ plan.types)
    : (start plan).Names type ↔ c.types.Importable type := by
  obtain ⟨root, assembled⟩ := made.assembled
  unfold Scope.Names TypeSource.Importable
  by_cases noList : listItem? type = none
  · by_cases noMap : mapTypes? type = none
    · have noted := get?_moduleOf made member noList noMap
      have imported (module : String) (found : plan.moduleOf.get? type = some module)
          : ((start plan).moduleReference? module).isSome = true :=
        moduleReference?_isSome (assembled.modules (mem_map.mpr ⟨_, Table.mem_of_get? found, rfl⟩))
      refine or_congr Iff.rfl (or_congr Iff.rfl (or_congr Iff.rfl ?_))
      rw [← noted, isSome_iff_exists]
      exact exists_congr fun module => and_iff_left_of_imp (imported module)
    · simp [isSome_iff_ne_none.mpr noMap]
  · simp [isSome_iff_ne_none.mpr noList]

/-! ### Elements -/

/-- The ids that a list of variables belongs to have their objects in the plan. -/
def Available (c : Context) (s : State) (vars : List String) : Prop :=
  ∀ id entry, c.registry.get? id = some entry → entry.var ∈ vars → entry.var ∈ s.elements.keys

section

variable (made : Made c plan s)
include made

theorem having_has
    : ((start plan).having before).Has var ↔ var ∈ s.elements.keys ∧ var ∈ before := by
  change var ∈ plan.elements.keys ∧ _ ↔ _
  rw [made.elements, Scope.mem_built_having]
  simp [start]

/-- A source of an element that needs available ids only is valid after the elements before it. -/
theorem valid_of_available (sound : c.Sound) (there : (var, e) ∈ s.elements)
    (member : source ∈ e.sources) (available : Available c s (source.needs c.varOf))
    (split : plan.order = before ++ var :: after)
    : source.Valid ((start plan).having before).Has ((start plan).having before).Knows := by
  have has {other : String} (needed : other ∈ source.needs c.varOf)
      (known : other ∈ s.elements.keys) : ((start plan).having before).Has other :=
    (having_has made).mpr ⟨known, made.needed_before there member needed known split⟩
  refine Source.Valid.imp ((made.finished there).reads source member)
    (fun other (needed : other ∈ source.needs c.varOf) known => ?_) ?_
  · rcases known with known | ⟨id, found⟩
    · exact has needed known
    · obtain ⟨entry, declared, rfl⟩ := map_eq_some_iff.mp found
      exact has needed (available id entry declared needed)
  · rintro id within ⟨entry, declared⟩
    have found : c.varOf id = some entry.var := by simp [Context.varOf, declared]
    have needed := within entry.var found
    have known := available id entry declared needed
    exact ⟨entry.var, (made.registry_iff sound).mpr ⟨found, known⟩, has needed known⟩

theorem available_of_valid (sound : c.Sound) {scope : Scope} (same : scope.plan = plan)
    (valid : source.Valid scope.Has scope.Knows)
    : Available c s (source.needs c.varOf) := by
  subst same
  intro id entry declared needed
  rw [← made.elements]
  rcases valid.needed needed with has | controller | ⟨other, ⟨var, found, has⟩, varOf⟩
  · exact has.1
  · have free := made.inv.named.free _ _ (made.inv.declared id entry declared)
    exact (free (controller ▸ controllerNode_mem_buildNames)).elim
  · have known := ((made.registry_iff sound).mp found).1
    rw [varOf] at known
    exact some.inj known ▸ has.1

/-- The statements of an element exist in its place exactly when its sources need available ids only
and its types have names.
-/
theorem elementStatements_iff (sound : c.Sound) (there : (var, e) ∈ s.elements)
    (split : plan.order = before ++ var :: after)
    : Emits (((start plan).having before).elementStatements e)
      ↔ (∀ source ∈ e.sources, Available c s (source.needs c.varOf))
        ∧ ∀ type ∈ e.types, (start plan).Names type := by
  obtain ⟨root, assembled⟩ := made.assembled
  have imported (i : Inclusion) (given : e.inclusion = some i)
      : (((start plan).having before).moduleReference? i.module).isSome = true :=
    moduleReference?_isSome (assembled.included e (mem_map.mpr ⟨_, there, rfl⟩) i given)
  rw [Scope.elementStatements_emits (made.finished there).shaped imported, ← and_assoc]
  refine and_congr ⟨?_, fun available => ⟨?_, ?_⟩⟩ Iff.rfl
  · rintro ⟨makers, steps⟩ source member
    rcases Element.mem_sources_iff.mp member with maker | ⟨step, listed, rfl⟩
    · exact available_of_valid made sound rfl (makers source maker)
    · exact available_of_valid made sound rfl (steps step listed)
  · intro source maker
    have member := Element.mem_sources_iff.mpr (.inl maker)
    exact valid_of_available made sound there member (available source member) split
  · intro step listed
    have member := Element.mem_sources_iff.mpr (.inr ⟨step, listed, rfl⟩)
    have valid := valid_of_available made sound there member (available _ member) split
    have more (other : String) (has : ((start plan).having before).Has other)
        : (((start plan).having before).build e.var).Has other :=
      ⟨has.1, mem_cons_of_mem _ has.2⟩
    exact valid.mono more fun id ⟨other, found, has⟩ => ⟨other, found, more other has⟩

theorem orderStatements_iff (sound : c.Sound)
    : Emits ((start plan).orderStatements plan.order)
      ↔ ∀ e ∈ plan.elements.values,
          (∀ source ∈ e.sources, Available c s (source.needs c.varOf))
          ∧ ∀ type ∈ e.types, (start plan).Names type := by
  have own (var : String) (e : Element) (found : plan.elements.get? var = some e) : e.var = var :=
    made.own (made.mem_elements found)
  rw [Scope.orderStatements_emits own]
  constructor
  · intro all e member
    rw [made.elements] at member
    obtain ⟨⟨var, _⟩, there, rfl⟩ := mem_map.mp member
    have listed : var ∈ plan.order := made.ordered.perm.mem_iff.mpr (Table.mem_keys_of_mem there)
    obtain ⟨before, after, split⟩ := append_of_mem listed
    obtain ⟨e', found, emits⟩ := all before var after split
    cases (made.get?_of_mem there).symm.trans found
    exact (elementStatements_iff made sound there split).mp emits
  · intro all before var after split
    have listed : var ∈ plan.order := split ▸ mem_append_right _ mem_cons_self
    obtain ⟨e, there⟩ := Table.mem_keys.mp (made.ordered.perm.mem_iff.mp listed)
    refine ⟨e, made.get?_of_mem there, (elementStatements_iff made sound there split).mpr ?_⟩
    exact all e (made.elements ▸ mem_map.mpr ⟨_, there, rfl⟩)

/-! ### Bindings and the controller -/

theorem bindingStatement_iff (sound : c.Sound) {b : Binding} (member : b ∈ plan.bindings)
    : Emits (((start plan).having plan.order).bindingStatement b)
      ↔ Available c s (b.needs c.varOf) := by
  obtain ⟨root, assembled⟩ := made.assembled
  obtain ⟨own, e, given, declared⟩ := made.inv.bound b (assembled.bindings.mem_iff.mp member)
  have built {var : String} (known : var ∈ s.elements.keys)
      : ((start plan).having plan.order).Has var :=
    (having_has made).mpr ⟨known, made.ordered.perm.mem_iff.mpr known⟩
  rw [Scope.bindingStatement_emits]
  constructor
  · rintro ⟨_, e', given', resolves⟩ id entry _ bound
    obtain ⟨r, listed, varOf⟩ := mem_filterMap.mp bound
    obtain ⟨listed, other⟩ := mem_filter.mp listed
    rw [given'] at listed
    obtain ⟨var, found, has⟩ := (resolves r listed).resolve_left (by simpa using other)
    have known := (made.registry_iff sound).mp found
    rw [varOf] at known
    exact some.inj known.1 ▸ known.2
  · intro available
    refine ⟨(built own).2, e, given, fun r listed => ?_⟩
    by_cases controller : r.isController = true
    · exact .inl controller
    obtain ⟨entry, found⟩ := (declared r listed).resolve_left controller
    have varOf : c.varOf r.name = some entry.var := by simp [Context.varOf, found]
    have bound : entry.var ∈ b.needs c.varOf := by
      refine mem_filterMap.mpr ⟨r, mem_filter.mpr ⟨?_, by simpa using controller⟩, varOf⟩
      rw [given]
      exact listed
    have known := available r.name entry found bound
    exact .inr ⟨entry.var, (made.registry_iff sound).mpr ⟨varOf, known⟩, built known⟩

theorem controllerTerm_iff
    : Emits (start plan).controllerTerm
      ↔ ∀ type ∈ (plan.controller.map (·.type)).toList, (start plan).Names type := by
  obtain ⟨root, found⟩ := Table.exists_get? (made.elements ▸ made.root)
  unfold Scope.controllerTerm
  cases controller : (start plan).plan.controller with
  | none => simp [show plan.controller = none from controller]
  | some linked =>
    have found : (start plan).plan.elements.get? (start plan).plan.rootVar = some root := found
    simp [found, show plan.controller = some linked from controller, Scope.typeTerm_spec.emits]

/-- The code of a plan exists exactly when all sources and bindings need available ids only and all
types have names.
-/
theorem generate_iff (sound : c.Sound)
    : Emits (generate plan)
      ↔ (∀ e ∈ plan.elements.values, ∀ source ∈ e.sources, Available c s (source.needs c.varOf))
        ∧ (∀ b ∈ plan.bindings, Available c s (b.needs c.varOf))
        ∧ ∀ type ∈ plan.types, (start plan).Names type := by
  have own (var : String) (e : Element) (found : plan.elements.get? var = some e) : e.var = var :=
    made.own (made.mem_elements found)
  have root : plan.rootVar ∈ ((start plan).having plan.order).built :=
    ((having_has made).mpr ⟨made.root, made.ordered.perm.mem_iff.mpr made.root⟩).2
  have bindings : (∀ b ∈ plan.bindings, Emits (((start plan).having plan.order).bindingStatement b))
      ↔ ∀ b ∈ plan.bindings, Available c s (b.needs c.varOf) :=
    forall₂_congr fun b member => bindingStatement_iff made sound member
  have types : (∀ type ∈ plan.types, (start plan).Names type)
      ↔ (∀ type ∈ (plan.controller.map (·.type)).toList, (start plan).Names type)
        ∧ ∀ e ∈ plan.elements.values, ∀ type ∈ e.types, (start plan).Names type := by
    simp only [Plan.types, mem_append, or_imp, forall_and, mem_flatMap]
    refine and_congr Iff.rfl ⟨fun all e member type used => all type ⟨e, member, used⟩, ?_⟩
    rintro all type ⟨e, member, used⟩
    exact all e member type used
  calc Emits (generate plan)
    _ ↔ Emits (start plan).controllerTerm ∧ Emits (start plan).body := generate_emits plan
    _ ↔ Emits (start plan).controllerTerm
        ∧ Emits ((start plan).orderStatements plan.order)
        ∧ (∀ b ∈ plan.bindings, Emits (((start plan).having plan.order).bindingStatement b))
        ∧ plan.rootVar ∈ ((start plan).having plan.order).built :=
      and_congr Iff.rfl (Scope.body_emits own)
    _ ↔ _ := by
      rw [and_iff_left root, controllerTerm_iff made, orderStatements_iff made sound, bindings,
        types, forall₂_and]
      constructor
      · rintro ⟨controller, ⟨sources, used⟩, bound⟩
        exact ⟨sources, bound, controller, used⟩
      · rintro ⟨sources, bound, controller, used⟩
        exact ⟨controller, ⟨sources, used⟩, bound⟩

end

end Code

open Planning

/-- A plan without errors becomes code exactly when the node of every id that is read is placed and
grounded and every type that is named can be imported.
-/
theorem Document.code_exists_iff {src path : String} {document : Document}
    {settings : PlanSettings} {module className : String} {diagnostics reports : Diagnostics}
    {known known' : IncludeCache} {plan : Plan}
    (parsed : Document.read src path = .ok document)
    (run : (document.plan settings module className diagnostics).run.run known
      = (.ok (some plan, reports), known'))
    (clean : reports.ok = true)
    : (∃ code, Code.generate plan = .ok code)
      ↔ (∀ id entry,
          (document.ids settings.reserved).get? id = some entry
          → plan.Reads (document.varOf settings.reserved) entry.var
          → entry.node ∈ document.root.placed .object
            ∧ entry.node.Grounded (document.ids settings.reserved))
        ∧ ∀ type ∈ plan.types, settings.types.Importable type := by
  obtain ⟨c, s, same, types, registry, sound, made⟩ :=
    Document.made_of_plan (nodup_ranks parsed) run clean
  have varOf : document.varOf settings.reserved = c.varOf := by
    funext id
    rw [Document.varOf, Context.varOf, registry]
  rw [varOf, ← types, ← registry, ← same]
  have named : (∀ type ∈ plan.types, (Code.start plan).Names type)
      ↔ ∀ type ∈ plan.types, c.types.Importable type :=
    forall₂_congr fun type member => Code.names_iff made member
  refine (Code.generate_iff made sound).trans ?_
  rw [named, ← and_assoc]
  refine and_congr ⟨?_, fun placed => ⟨?_, ?_⟩⟩ Iff.rfl
  · rintro ⟨sources, bindings⟩ id entry declared (⟨e, listed, source, member, needed⟩ | ⟨b, listed, needed⟩)
    · exact (made.entry_planned_iff sound declared).mp
        (sources e listed source member id entry declared needed)
    · exact (made.entry_planned_iff sound declared).mp (bindings b listed id entry declared needed)
  · intro e listed source member id entry declared needed
    exact (made.entry_planned_iff sound declared).mpr
      (placed id entry declared (.inl ⟨e, listed, source, member, needed⟩))
  · intro b listed id entry declared needed
    exact (made.entry_planned_iff sound declared).mpr
      (placed id entry declared (.inr ⟨b, listed, needed⟩))

/-- A title is taken from a box that stands in definitions within definitions. -/
def hiddenDefinition : String :=
  "<?import ui.*?><Box xmlns:fx=\"http://javafx.com/fxml\" title=\"$a.title\">"
    ++ "<fx:define><fx:define><Box fx:id=\"a\"/></fx:define></fx:define></Box>"

/-- Definitions within definitions are not placed, yet nothing is reported. -/
theorem Document.no_code_of_hiddenDefinition
    : ∃ document plan reports known,
        Document.read hiddenDefinition "" = .ok document
        ∧ (document.plan { types := boxTypes } "" "" { file := "" }).run.run []
          = (.ok (some plan, reports), known)
        ∧ reports.ok = true
        ∧ (∀ code, Code.generate plan ≠ .ok code)
        ∧ ¬((∀ id entry,
              (document.ids []).get? id = some entry
              → plan.Reads (document.varOf []) entry.var
              → entry.node ∈ document.root.placed .object ∧ entry.node.Grounded (document.ids []))
            ∧ ∀ type ∈ plan.types, boxTypes.Importable type) := by
  have planned : (cleanPlan? boxTypes hiddenDefinition).map (fun plan => (Code.generate plan).isOk)
      = some false := by
    decide +kernel
  obtain ⟨plan, found, fails⟩ := map_eq_some_iff.mp planned
  obtain ⟨document, reports, known, parsed, run, clean⟩ := exists_of_cleanPlan? found
  have none : ∀ code, Code.generate plan ≠ .ok code := by
    intro code made
    rw [made] at fails
    cases fails
  refine ⟨document, plan, reports, known, parsed, run, clean, none, fun all => ?_⟩
  obtain ⟨code, made⟩ := (Document.code_exists_iff parsed run clean).mpr all
  exact none code made

end Fxml
