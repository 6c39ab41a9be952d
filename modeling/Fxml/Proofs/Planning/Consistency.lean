import Fxml.Document.Parser
import Fxml.Proofs.Planning.Assembly
import Fxml.Types.Catalog

/-! What a plan without errors guarantees: which ids have an object, that names in the code are told
apart, and that what a source needs comes before its element.
-/

open List

namespace Fxml

mutual

theorem Source.needs_mono {varOf varOf' : String → Option String}
    (more : ∀ id var, varOf id = some var → varOf' id = some var) (source : Source)
    : source.needs varOf ⊆ source.needs varOf' := by
  cases source with
  | list pos items => exact needsOfAll_mono more items
  | expr pos value convertTo =>
    intro var member
    obtain ⟨r, there, found⟩ := mem_filterMap.mp member
    refine mem_filterMap.mpr ⟨r, there, ?_⟩
    split at found
    · rename_i controller
      rw [if_pos controller, found]
    · rename_i other
      rw [if_neg other, more r.name var found]
  | handler pos source =>
    have inner : source.needs varOf ⊆ source.needs varOf' := needs_mono more source
    exact inner
  | _ => exact Subset.refl _
termination_by sizeOf source

theorem Source.needsOfAll_mono {varOf varOf' : String → Option String}
    (more : ∀ id var, varOf id = some var → varOf' id = some var) (sources : List Source)
    : needsOfAll varOf sources ⊆ needsOfAll varOf' sources := by
  cases sources with
  | nil => exact Subset.refl _
  | cons source rest =>
    exact append_subset.mpr
      ⟨subset_append_of_subset_left _ (needs_mono more source),
        subset_append_of_subset_right _ (needsOfAll_mono more rest)⟩
termination_by sizeOf sources

end

namespace Planning.Made

variable {c : Context} {plan : Plan} {s : State} {id var : String} {e : Element}

section

variable (made : Made c plan s)
include made

theorem elements : plan.elements = s.elements :=
  made.assembled.elim fun _ assembled => assembled.elements

theorem mem_elements (found : plan.elements.get? var = some e)
    : (var, e) ∈ s.elements :=
  made.elements ▸ Table.mem_of_get? found

theorem get?_of_mem (there : (var, e) ∈ s.elements)
    : plan.elements.get? var = some e :=
  made.elements ▸ Table.get?_of_mem made.inv.unique there

theorem own (there : (var, e) ∈ s.elements) : e.var = var :=
  (made.inv.standing var e there).1

theorem finished (there : (var, e) ∈ s.elements) : Finished c s e :=
  made.inv.finished var e there (by simp)

/-! ### Names -/

/-- Every element's variable is that of a node, so no other name in use is. -/
theorem private_not_mem (h : Private s var) : var ∉ s.elements.keys := by
  intro member
  obtain ⟨e, there⟩ := Table.mem_keys.mp member
  obtain ⟨same, node, _, _, named, _⟩ := made.inv.standing var e there
  exact h.2 node.order (same ▸ named)

/-- The plan's ids are those whose objects are in it. -/
theorem registry_iff (sound : c.Sound)
    : plan.registry.get? id = some var ↔ c.varOf id = some var ∧ var ∈ s.elements.keys := by
  obtain ⟨root, assembled⟩ := made.assembled
  rw [assembled.registry, Table.get?_map_filter sound.unique, Context.varOf, Option.map_eq_some_iff]
  constructor
  · rintro ⟨entry, found, kept, rfl⟩
    exact ⟨⟨entry, found, rfl⟩, Table.contains_iff.mp kept⟩
  · rintro ⟨⟨entry, found, rfl⟩, there⟩
    exact ⟨entry, found, Table.contains_iff.mpr there, rfl⟩

/-- An id has an object exactly when its node is placed and grounded. -/
theorem entry_planned_iff (sound : c.Sound) {entry : Entry}
    (declared : c.registry.get? id = some entry)
    : entry.var ∈ s.elements.keys ↔ c.Placed entry.node ∧ c.Grounded entry.node := by
  have named := made.inv.named
  have own := made.inv.declared id entry declared
  constructor
  · intro member
    obtain ⟨e, there⟩ := Table.mem_keys.mp member
    obtain ⟨same, node, placed, grounded, other, _⟩ := made.inv.standing _ e there
    rw [same] at other
    have pair := inj_on_of_nodup_map named.unique own other rfl
    have only := sound.eq_of_order (sound.declares id entry declared).1 placed.mem_walk
      (Prod.mk.inj pair).1
    exact only ▸ ⟨placed, grounded⟩
  · rintro ⟨placed, grounded⟩
    obtain ⟨var, other, there⟩ := made.covered entry.node placed grounded
    have pair := inj_on_of_nodup_map named.ranked own other rfl
    exact (Prod.mk.inj pair).2 ▸ there

/-! ### The order -/

theorem ordered : Ordered s.elements plan.order :=
  made.assembled.elim fun _ assembled => assembled.order

theorem needed_before (there : (var, e) ∈ s.elements) {source : Source}
    (member : source ∈ e.sources) {other : String} (needed : other ∈ source.needs c.varOf)
    (known : other ∈ s.elements.keys) {before after : List String}
    (split : plan.order = before ++ var :: after)
    : other ∈ before :=
  made.ordered.earlier before var after split e there other
    ((made.finished there).depends source member needed) known

end

end Planning.Made

/-! ### Plans of texts -/

/-- The plan of a text where there is one without errors. -/
def cleanPlan? (types : TypeSource) (src : String) : Option Plan :=
  match Document.read src "" with
  | .error _ => none
  | .ok document =>
    match (document.plan { types } "" "" { file := "" }).run.run [] with
    | (.ok (some plan, reports), _) => if reports.ok then some plan else none
    | _ => none

theorem exists_of_cleanPlan? {types : TypeSource} {src : String} {plan : Plan}
    (h : cleanPlan? types src = some plan)
    : ∃ document reports known,
        Document.read src "" = .ok document
        ∧ (document.plan { types } "" "" { file := "" }).run.run [] = (.ok (some plan, reports), known)
        ∧ reports.ok = true := by
  unfold cleanPlan? at h
  split at h
  · cases h
  rename_i document parsed
  split at h
  · rename_i plan' reports known run
    split at h
    · rename_i clean
      cases h
      exact ⟨document, reports, known, parsed, run, clean⟩
    · cases h
  · cases h

/-- Boxes with titles that hold other boxes. -/
def boxTypes : TypeSource :=
  Catalog.source [("ui.Box", {
    name := "ui.Box"
    module := "ui"
    constructors := [{}]
    properties := [("title", { name := "title", type := "str" }),
      ("children", { name := "children", type := "ui.Box", kind := .list })]
    defaultProperty := some "children" })]

end Fxml
