import Fxml.Plan.Basic

/-! Well-formed parts of a plan: sources that name only what is known, and steps and elements with
exactly the parts that their kind or strategy needs.
-/

open List

namespace Fxml

namespace Source

/-! ### Sources -/

mutual

/-- A source that stands for a value, whose elements are known and whose ids are declared. -/
def Valid (known declared : String → Prop) : Source → Prop
  | element _ var => known var
  | list _ items => AllValid known declared items
  | expr _ value _ =>
    ∃ e, value = .once e ∧ ∀ r ∈ e.references, r.isController = true ∨ declared r.name
  | handler _ source => Valid known declared source
  | absent _ => False
  | _ => True

def AllValid (known declared : String → Prop) : List Source → Prop
  | [] => True
  | source :: rest => Valid known declared source ∧ AllValid known declared rest

end

/-- A source that can fill an event slot. -/
def IsHandler : Source → Prop
  | method .. | handler .. => True
  | _ => False

section

variable {known declared known' declared' : String → Prop} {varOf : String → Option String}
  {var : String}

theorem allValid_iff {sources : List Source}
    : AllValid known declared sources ↔ ∀ source ∈ sources, Valid known declared source := by
  induction sources with
  | nil => simp [AllValid]
  | cons source rest ih => simp [AllValid, ih]

mutual

theorem Valid.imp {source : Source} (h : Valid known declared source)
    (elements : ∀ var ∈ needs varOf source, known var → known' var)
    (ids : ∀ id, (∀ var, varOf id = some var → var ∈ needs varOf source)
      → declared id → declared' id)
    : Valid known' declared' source := by
  cases source with
  | element pos var => exact elements var (by simp [needs]) h
  | list pos items => exact AllValid.imp h elements ids
  | expr pos value convertTo =>
    obtain ⟨e, rfl, references⟩ := h
    refine ⟨e, rfl, fun r member => ?_⟩
    by_cases controller : r.isController = true
    · exact .inl controller
    refine .inr (ids r.name (fun var found => ?_) ((references r member).resolve_left controller))
    exact mem_filterMap.mpr ⟨r, member, by simp [controller, found]⟩
  | handler pos source =>
    have inner : Valid known declared source := h
    exact inner.imp elements ids
  | absent pos => exact h
  | _ => trivial
termination_by sizeOf source

theorem AllValid.imp {sources : List Source} (h : AllValid known declared sources)
    (elements : ∀ var ∈ needsOfAll varOf sources, known var → known' var)
    (ids : ∀ id, (∀ var, varOf id = some var → var ∈ needsOfAll varOf sources)
      → declared id → declared' id)
    : AllValid known' declared' sources := by
  cases sources with
  | nil => trivial
  | cons source rest =>
    have left : needs varOf source ⊆ needsOfAll varOf (source :: rest) :=
      subset_append_left _ _
    have right : needsOfAll varOf rest ⊆ needsOfAll varOf (source :: rest) :=
      subset_append_right _ _
    exact ⟨
      Valid.imp h.1 (fun var member => elements var (left member))
        fun id within => ids id fun var found => left (within var found),
      AllValid.imp h.2 (fun var member => elements var (right member))
        fun id within => ids id fun var found => right (within var found)
    ⟩
termination_by sizeOf sources

end

mutual

/-- What a valid source needs is known, or the controller, or the variable of a declared id. -/
theorem Valid.needed {source : Source} (h : Valid known declared source)
    (needed : var ∈ needs varOf source)
    : known var ∨ var = Plan.controllerNode ∨ ∃ id, declared id ∧ varOf id = some var := by
  cases source with
  | element pos other =>
    cases mem_singleton.mp needed
    exact .inl h
  | list pos items => exact AllValid.needed h needed
  | expr pos value convertTo =>
    obtain ⟨e, rfl, references⟩ := h
    obtain ⟨r, member, found⟩ := mem_filterMap.mp needed
    split at found
    · exact .inr (.inl (Option.some.inj found).symm)
    · rename_i other
      exact .inr (.inr ⟨r.name, (references r member).resolve_left other, found⟩)
  | method => exact .inr (.inl (mem_singleton.mp needed))
  | handler pos source =>
    have inner : Valid known declared source := h
    exact inner.needed needed
  | _ => exact nomatch needed
termination_by sizeOf source

theorem AllValid.needed {sources : List Source} (h : AllValid known declared sources)
    (needed : var ∈ needsOfAll varOf sources)
    : known var ∨ var = Plan.controllerNode ∨ ∃ id, declared id ∧ varOf id = some var := by
  cases sources with
  | nil => exact nomatch needed
  | cons source rest =>
    exact (mem_append.mp needed).elim (Valid.needed h.1) (AllValid.needed h.2)
termination_by sizeOf sources

end

theorem Valid.mono {source : Source} (h : Valid known declared source)
    (elements : ∀ var, known var → known' var) (ids : ∀ id, declared id → declared' id)
    : Valid known' declared' source :=
  h.imp (fun var (_ : var ∈ needs (fun _ => none) source) => elements var) fun id _ => ids id

end

end Source

/-! ### Steps and elements -/

/-- A step with the parts that its kind needs; only attached properties have an owner. -/
def Step.Shaped (step : Step) : Prop :=
  match step.kind with
  | .set | .append | .extend => step.owner = none
  | .put => step.owner = none ∧ step.key.isSome
  | .attach => step.owner.isSome
  | .handler | .listener | .listListener => step.owner = none ∧ step.source.IsHandler
  | .other _ => False

/-- An element with the parts that its strategy needs and no others. -/
structure Element.Shaped (e : Element) : Prop where
  args : e.strategy ≠ .construct → e.args = []
  source : e.source.isSome ↔ e.strategy = .text ∨ e.strategy = .value ∨ e.strategy = .copy
  owner : e.ownerType.isSome ↔ e.strategy = .factory ∨ e.strategy = .constant
  builder : e.builderType.isSome ↔ e.strategy = .builder
  builderVar : e.strategy = .builder → e.builderVar.isSome
  builderSteps : e.strategy ≠ .builder → e.builderSteps = []
  inclusion : e.strategy = .inclusion → e.inclusion.isSome
  named : ∀ name, e.strategy ≠ .other name
  steps : ∀ step ∈ e.steps, step.Shaped
  plain : ∀ step ∈ e.builderSteps, step.owner = none

namespace Element

variable {e : Element}

/-- The variables of builders in the code of an element. -/
def builderVars (e : Element) : List String :=
  e.builderVar.toList ++ (e.inclusion.map (·.builderVar)).toList

theorem mem_sources {source : Source}
    : source ∈ e.sources
      ↔ (∃ name, (name, source) ∈ e.args)
        ∨ e.source = some source
        ∨ (∃ step ∈ e.builderSteps, step.source = source)
        ∨ ∃ step ∈ e.steps, step.source = source := by
  simp only [sources, map_append, mem_append, mem_map, Option.mem_toList,
    Prod.exists, exists_eq_right, or_assoc]

/-- What comes after construction does not matter for the strategy. -/
theorem Shaped.update (h : e.Shaped) {steps : List Step} (shaped : ∀ step ∈ steps, step.Shaped)
    (setsId : Bool) (dependencies : List String) (field : Option String) (attached : Bool)
    : Shaped { e with
        steps := steps, setsId := setsId, dependencies := dependencies, field := field
        attached := attached } where
  args := h.args
  source := h.source
  owner := h.owner
  builder := h.builder
  builderVar := h.builderVar
  builderSteps := h.builderSteps
  inclusion := h.inclusion
  named := h.named
  steps := shaped
  plain := h.plain

/-- A node that must come first is noted once, and nothing else changes. -/
theorem dependOn_eq (e : Element) (key : String)
    : ∃ all,
        e.dependOn key = { e with dependencies := all }
        ∧ ∀ other, other ∈ all ↔ other ∈ e.dependencies ∨ other = key := by
  unfold dependOn
  split
  · rename_i there
    refine ⟨e.dependencies, rfl, fun other => ⟨.inl, ?_⟩⟩
    rintro (before | rfl)
    · exact before
    · exact contains_iff_mem.mp there
  · exact ⟨_, rfl, by simp⟩

theorem foldl_dependOn_eq (e : Element) (keys : List String)
    : ∃ all,
        keys.foldl dependOn e = { e with dependencies := all }
        ∧ ∀ other, other ∈ all ↔ other ∈ e.dependencies ∨ other ∈ keys := by
  induction keys generalizing e with
  | nil => exact ⟨e.dependencies, rfl, by simp⟩
  | cons key rest ih =>
    obtain ⟨first, same, grown⟩ := e.dependOn_eq key
    obtain ⟨all, same', grown'⟩ := ih (e.dependOn key)
    rw [same] at same' grown'
    refine ⟨all, by rw [foldl_cons, same, same'], fun other => ?_⟩
    rw [grown', grown, mem_cons, or_assoc]

end Element

end Fxml
