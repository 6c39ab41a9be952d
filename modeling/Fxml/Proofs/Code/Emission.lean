import Mathlib.Logic.Basic
import Fxml.Code.Emit
import Fxml.Naming.Style
import Fxml.Proofs.Outcome
import Fxml.Proofs.Plan.Shape
import Fxml.Proofs.Table

/-! When code can be generated. The term of an expression exists exactly when all ids in it have
objects that are built, and that of a source when it is valid and its types can be named.
-/

open List

namespace Fxml.Element

/-- The sources that are read when an element's object is made. -/
def makers (e : Element) : List Source :=
  e.args.map Prod.snd ++ e.source.toList ++ e.builderSteps.map (·.source)

/-- The types that are named when an element's object is made, beside those of its sources. -/
def makerTypes (e : Element) : List String :=
  (match e.strategy with
    | .construct | .text | .root => [e.type]
    | _ => [])
  ++ e.ownerType.toList ++ e.builderType.toList

/-- A type is named where the object is made, by the owner of a step, or by a source. -/
def Mentions (e : Element) (type : String) : Prop :=
  type ∈ e.makerTypes
    ∨ (∃ step ∈ e.steps, step.owner = some type)
    ∨ (∃ source ∈ e.makers, type ∈ source.types)
    ∨ ∃ step ∈ e.steps, type ∈ step.source.types

theorem mem_sources_iff {e : Element} {source : Source}
    : source ∈ e.sources ↔ source ∈ e.makers ∨ ∃ step ∈ e.steps, step.source = source := by
  simp only [sources, makers, map_append, mem_append, mem_map, or_assoc]

theorem mem_types {type : String} (e : Element) (shaped : e.Shaped)
    : type ∈ e.types ↔ e.Mentions type := by
  have plain : e.builderSteps.filterMap (·.owner) = [] :=
    filterMap_eq_nil_iff.mpr shaped.plain
  have uses : type ∈ e.sources.flatMap Source.types
      ↔ (∃ source ∈ e.makers, type ∈ source.types) ∨ ∃ step ∈ e.steps, type ∈ step.source.types := by
    simp only [mem_flatMap, mem_sources_iff, or_and_right, exists_or]
    refine or_congr Iff.rfl ⟨?_, ?_⟩
    · rintro ⟨_, ⟨step, there, rfl⟩, used⟩
      exact ⟨step, there, used⟩
    · rintro ⟨step, there, used⟩
      exact ⟨step.source, ⟨step, there, rfl⟩, used⟩
  unfold types Mentions
  rw [mem_append, uses, filterMap_append, plain, nil_append, mem_append, mem_filterMap, or_assoc]
  rfl

end Fxml.Element

namespace Fxml.Code

variable {α β : Type}

variable {x : Emit α} {f : α → Emit β}

/-! ### Parts of the code -/

/-- A part of the code can be generated. -/
def Emits (x : Emit α) : Prop := ∃ a, x = .ok a

@[simp] theorem emits_ok (a : α) : Emits (.ok a) := ⟨a, rfl⟩

@[simp] theorem emits_pure (a : α) : Emits (pure a) := ⟨a, rfl⟩

@[simp] theorem not_emits_error (e : Error) : ¬Emits (.error e : Emit α) := fun ⟨_, h⟩ => nomatch h

@[simp] theorem not_emits_violation (cause : Cause) (pos : Position)
    : ¬Emits (violation cause pos : Emit α) :=
  not_emits_error _

theorem emits_bind : Emits (x >>= f) ↔ ∃ a, x = .ok a ∧ Emits (f a) := by
  cases x with
  | error e => simp [bind, Except.bind]
  | ok a => simp [bind, Except.bind]

/-- Two parts, where it does not matter for the second what the first is. -/
theorem emits_bind_iff {p : Prop} (h : ∀ a, Emits (f a) ↔ p) : Emits (x >>= f) ↔ Emits x ∧ p := by
  simp only [emits_bind, h]
  exact exists_and_right

theorem emits_bind_pure {f : α → β} : Emits (x >>= fun a => pure (f a)) ↔ Emits x := by
  rw [emits_bind_iff fun a => iff_true_intro (emits_pure (f a)), and_true]

theorem emits_mapM {items : List α} : Emits (items.mapM f) ↔ ∀ item ∈ items, Emits (f item) := by
  induction items with
  | nil => simp
  | cons item rest ih =>
    rw [mapM_cons, emits_bind_iff fun _ => emits_bind_pure, ih, forall_mem_cons]

/-! ### What is generated -/

namespace Term

mutual

/-- The variables in a term and, in the wide sense, the first parts of its dotted names. -/
@[simp] def vars (wide : Bool) : Term → List String
  | literal _ | halves _ => []
  | var name => [name]
  | global path => if wide then [Naming.firstPart path] else []
  | attr target _ => vars wide target
  | call target args => vars wide target ++ varsOfAll wide args
  | callNamed target args => vars wide target ++ varsOfNamed wide args
  | index target key => vars wide target ++ vars wide key
  | list items => varsOfAll wide items
  | map entries => varsOfEntries wide entries
  | unary _ operand => vars wide operand
  | binary _ left right => vars wide left ++ vars wide right

@[simp] def varsOfAll (wide : Bool) : List Term → List String
  | [] => []
  | t :: rest => vars wide t ++ varsOfAll wide rest

@[simp] def varsOfNamed (wide : Bool) : List (String × Term) → List String
  | [] => []
  | (_, t) :: rest => vars wide t ++ varsOfNamed wide rest

@[simp] def varsOfEntries (wide : Bool) : List (Term × Term) → List String
  | [] => []
  | (key, value) :: rest => vars wide key ++ vars wide value ++ varsOfEntries wide rest

end

theorem vars_support {wide : Bool} (name : String) : vars wide (support name) ⊆ Naming.buildNames := by
  cases wide <;> simp [support, Naming.firstPart, Naming.buildNames]

@[simp] theorem vars_string {wide : Bool} (text : String) : vars wide (string text) = [] := by
  simp [string]

end Term

theorem append_subset_append {l l' m m' : List String} (left : l ⊆ l') (right : m ⊆ m')
    : l ++ m ⊆ l' ++ m' :=
  append_subset.mpr ⟨subset_append_of_subset_left _ left, subset_append_of_subset_right _ right⟩

/-- A part of the code exists under a condition, and it is as stated. -/
structure Spec (x : Emit α) (condition : Prop) (stated : α → Prop) : Prop where
  emits : Emits x ↔ condition
  holds : ∀ a, x = .ok a → stated a

section Spec

variable {x : Emit α} {p q : Prop} {P : α → Prop} {Q : β → Prop}

theorem spec_ok {a : α} (condition : p) (stated : P a) : Spec (.ok a) p P where
  emits := iff_of_true (emits_ok a) condition
  holds _ h := by
    cases h
    exact stated

theorem spec_error {e : Error} (condition : ¬p) : Spec (.error e) p P where
  emits := iff_of_false (not_emits_error e) condition
  holds _ h := nomatch h

theorem Spec.congr (h : Spec x p P) (same : p ↔ q) : Spec x q P := ⟨h.emits.trans same, h.holds⟩

theorem Spec.bind (first : Spec x p P) (second : ∀ a, P a → Spec (f a) q Q)
    : Spec (x >>= f) (p ∧ q) Q where
  emits := by
    rw [emits_bind]
    constructor
    · rintro ⟨a, made, later⟩
      exact ⟨first.emits.mp ⟨a, made⟩, (second a (first.holds a made)).emits.mp later⟩
    · rintro ⟨here, later⟩
      obtain ⟨a, made⟩ := first.emits.mpr here
      exact ⟨a, made, (second a (first.holds a made)).emits.mpr later⟩
  holds b h := by
    obtain ⟨a, made, h⟩ := exists_of_bind_ok h
    exact (second a (first.holds a made)).holds b h

theorem Spec.map {f : α → β} (h : Spec x p P) (stated : ∀ a, P a → Q (f a))
    : Spec (x >>= fun a => pure (f a)) p Q :=
  (h.bind fun a holds => spec_ok trivial (stated a holds)).congr (iff_of_eq (and_true p))

end Spec

namespace Scope

variable {pos : Position} {var : String} {e : Element} {s : Scope} {wide : Bool}

/-- The types that the language has itself. -/
def typeNames : List String := "list" :: "dict" :: TypeName.primitives

/-- The names that are there before any object is made: those of the method and, in the wide sense, types
of the language and the first parts of the names by which modules are known.
-/
def common (s : Scope) (wide : Bool) : List String :=
  Naming.buildNames
    ++ if wide then typeNames ++ s.imports.map fun i => Naming.firstPart i.reference else []

theorem buildNames_subset_common : Naming.buildNames ⊆ s.common wide := subset_append_left _ _

@[simp] theorem vars_support_subset (name : String) : (Term.support name).vars wide ⊆ s.common wide :=
  Subset.trans (Term.vars_support name) buildNames_subset_common

/-- A name behind a dot is in no first part. -/
theorem firstPart_dotted (name inner : String)
    : Naming.firstPart (name ++ "." ++ inner) = Naming.firstPart name := by
  have chars : (name ++ "." ++ inner).toList = name.toList ++ '.' :: inner.toList := by
    simp
  unfold Naming.firstPart
  rw [chars, takeWhile_append]
  split
  · rename_i whole
    rw [takeWhile_cons_of_neg (by simp), append_nil,
      ( takeWhile_prefix _).eq_of_length whole]
  · rfl

/-- What a module is known by is a common name. -/
theorem vars_imported_subset {module reference : String} (inner : String)
    (known : s.moduleReference? module = some reference)
    : Term.vars wide (.global (reference ++ "." ++ inner)) ⊆ s.common wide := by
  obtain ⟨line, found, rfl⟩ := Option.map_eq_some_iff.mp known
  rw [Term.vars, firstPart_dotted]
  split
  · rename_i there
    rw [common, if_pos there, cons_subset]
    refine ⟨mem_append_right _ (mem_append_right _ (mem_map.mpr ⟨line, ?_, rfl⟩)), nil_subset _⟩
    exact mem_of_find?_eq_some found
  · exact nil_subset _

/-- Names of two terms, each with common names. -/
theorem subset_common_append {l l' names names' : List String} (left : l ⊆ s.common wide ++ names)
    (right : l' ⊆ s.common wide ++ names')
    : l ++ l' ⊆ s.common wide ++ (names ++ names') := by
  intro name held
  rw [mem_append, mem_append]
  rcases mem_append.mp held with first | second
  · exact (mem_append.mp (left first)).imp_right .inl
  · exact (mem_append.mp (right second)).imp_right .inr

/-- An object of the plan that is built already. -/
def Has (s : Scope) (var : String) : Prop := var ∈ s.plan.elements.keys ∧ var ∈ s.built

/-- An id whose object is built already. -/
def Knows (s : Scope) (id : String) : Prop := ∃ var, s.plan.registry.get? id = some var ∧ s.Has var

def Names (s : Scope) (type : String) : Prop :=
  TypeName.isPrimitive type = true
    ∨ (TypeName.listItem? type).isSome = true
    ∨ (TypeName.mapTypes? type).isSome = true
    ∨ ∃ module, s.plan.moduleOf.get? type = some module ∧ (s.moduleReference? module).isSome = true

theorem vars_typeName_subset {name : String} (listed : name ∈ typeNames)
    : Term.vars wide (.global name) ⊆ s.common wide := by
  have whole : ∀ name ∈ typeNames, Naming.firstPart name = name := by decide
  rw [Term.vars, whole name listed]
  split
  · rename_i there
    rw [common, if_pos there, cons_subset]
    exact ⟨mem_append_right _ (mem_append_left _ listed), nil_subset _⟩
  · exact nil_subset _

theorem typeTerm_spec {type : String}
    : Spec (s.typeTerm type pos) (s.Names type) fun t => ∀ wide, t.vars wide ⊆ s.common wide := by
  unfold typeTerm Names
  split
  · rename_i primitive
    refine spec_ok (by simp [*]) fun _ => vars_typeName_subset ?_
    exact mem_cons_of_mem _ (mem_cons_of_mem _ (contains_iff_mem.mp primitive))
  split
  · exact spec_ok (by simp [*]) fun _ => vars_typeName_subset (by simp [typeNames])
  split
  · exact spec_ok (by simp [*]) fun _ => vars_typeName_subset (by simp [typeNames])
  split
  · exact spec_error (by simp [*])
  split
  · exact spec_error (by simp [*])
  · rename_i found
    exact spec_ok (by simp [*]) fun _ => vars_imported_subset _ found

theorem elementTerm_spec : Spec (s.elementTerm var pos) (s.Has var) fun t =>
    ∀ wide, t.vars wide = [var] := by
  unfold elementTerm Has
  rw [← Table.contains_iff, ← contains_iff_mem]
  split
  · exact spec_error (by simp_all)
  split
  · exact spec_error (by simp_all)
  · exact spec_ok (by simp_all) fun _ => by rw [Term.vars]

/-! ### Expressions -/

/-- All references lead to the controller or to an object that is built. -/
def Resolves (s : Scope) (references : List Reference) : Prop :=
  ∀ r ∈ references, r.isController = true ∨ s.Knows r.name

theorem resolves_nil : s.Resolves [] := fun _ member => nomatch member

theorem resolves_append {references more : List Reference}
    : s.Resolves (references ++ more) ↔ s.Resolves references ∧ s.Resolves more := by
  simp only [Resolves, mem_append, or_imp, forall_and]

theorem resolves_singleton {r : Reference}
    : s.Resolves [r] ↔ r.isController = true ∨ s.Knows r.name := by
  simp [Resolves]

/-- The nodes that references lead to. -/
def targets (s : Scope) (references : List Reference) : List String :=
  references.filterMap fun r =>
    if r.isController then some Plan.controllerNode else s.plan.registry.get? r.name

theorem targets_append (references more : List Reference)
    : s.targets (references ++ more) = s.targets references ++ s.targets more :=
  filterMap_append

theorem referenceTerm_spec {name : String}
    : Spec (s.referenceTerm name pos) (s.Resolves [⟨pos, name⟩]) fun t =>
        ∀ wide, t.vars wide ⊆ s.targets [⟨pos, name⟩] := by
  rw [resolves_singleton]
  unfold referenceTerm targets Knows
  split
  · exact spec_ok (by simp [Reference.isController, *])
      (by simp [Reference.isController, Plan.controllerNode, *])
  split
  · exact spec_error (by simp [Reference.isController, *])
  · refine Spec.congr ⟨elementTerm_spec.emits, fun t made wide => ?_⟩ (by simp [Reference.isController, *])
    simp [elementTerm_spec.holds t made, Reference.isController, *]

mutual

/-- The term of an expression holds the variables that its references lead to. -/
theorem exprTerm_spec (e : Expr)
    : Spec (s.exprTerm e) (s.Resolves e.references) fun t =>
        ∀ wide, t.vars wide ⊆ s.common wide ++ s.targets e.references := by
  cases e with
  | const | halves =>
    rw [exprTerm, Expr.references]
    exact spec_ok resolves_nil (by simp)
  | ref pos name =>
    rw [exprTerm, Expr.references]
    exact ⟨referenceTerm_spec.emits, fun t made wide =>
      subset_append_of_subset_right _ (referenceTerm_spec.holds t made wide)⟩
  | path pos target name =>
    rw [exprTerm, Expr.references]
    exact (exprTerm_spec target).map fun t within wide => by
      rw [Term.vars]
      exact within wide
  | call pos target name args =>
    rw [exprTerm, Expr.references, resolves_append, targets_append, and_comm]
    refine (exprTerms_spec args).bind fun _ others => (exprTerm_spec target).map fun _ inner wide => ?_
    rw [Term.vars, Term.vars]
    exact subset_common_append (inner wide) (others wide)
  | index pos target key =>
    rw [exprTerm, Expr.references, resolves_append, targets_append]
    refine (exprTerm_spec target).bind fun _ first => (exprTerm_spec key).map fun _ second wide => ?_
    rw [Term.vars]
    exact subset_common_append (first wide) (second wide)
  | list pos items =>
    rw [exprTerm, Expr.references]
    exact (exprTerms_spec items).map fun _ within wide => by
      rw [Term.vars]
      exact within wide
  | map pos entries =>
    rw [exprTerm, Expr.references]
    exact (exprEntries_spec entries).map fun _ within wide => by
      rw [Term.vars]
      exact within wide
  | unary pos op operand =>
    rw [exprTerm, Expr.references]
    exact (exprTerm_spec operand).map fun _ within wide => by
      rw [Term.vars]
      exact within wide
  | binary pos op left right =>
    rw [exprTerm, Expr.references, resolves_append, targets_append]
    refine (exprTerm_spec left).bind fun _ first => (exprTerm_spec right).map fun _ second wide => ?_
    split <;> simpa using subset_common_append (first wide) (second wide)
termination_by sizeOf e

theorem exprTerms_spec (items : List Expr)
    : Spec (s.exprTerms items) (s.Resolves (Expr.referencesOfAll items)) fun ts =>
        ∀ wide, Term.varsOfAll wide ts ⊆ s.common wide ++ s.targets (Expr.referencesOfAll items) := by
  cases items with
  | nil =>
    rw [exprTerms, Expr.referencesOfAll]
    exact spec_ok resolves_nil (by simp)
  | cons e rest =>
    rw [exprTerms, Expr.referencesOfAll, resolves_append, targets_append]
    refine (exprTerm_spec e).bind fun _ first => (exprTerms_spec rest).map fun _ others wide => ?_
    rw [Term.varsOfAll]
    exact subset_common_append (first wide) (others wide)
termination_by sizeOf items

theorem exprEntries_spec (entries : List (Expr × Expr))
    : Spec (s.exprEntries entries) (s.Resolves (Expr.referencesOfEntries entries)) fun ts =>
        ∀ wide, Term.varsOfEntries wide ts ⊆ s.common wide ++ s.targets (Expr.referencesOfEntries entries) := by
  match entries with
  | [] =>
    rw [exprEntries, Expr.referencesOfEntries]
    exact spec_ok resolves_nil (by simp)
  | (key, value) :: rest =>
    rw [exprEntries, Expr.referencesOfEntries, append_assoc, resolves_append, resolves_append,
      targets_append, targets_append]
    refine (exprTerm_spec key).bind fun _ first => (exprTerm_spec value).bind fun _ second =>
      (exprEntries_spec rest).map fun _ others wide => ?_
    rw [Term.varsOfEntries, append_assoc]
    exact subset_common_append (first wide) (subset_common_append (second wide) (others wide))
termination_by sizeOf entries

end

mutual

theorem observedTerm_spec (e : Expr) : Spec (s.observedTerm e) (s.Resolves e.references) fun t =>
        ∀ wide, t.vars wide ⊆ s.common wide ++ s.targets e.references := by
  cases e with
  | const | halves =>
    rw [observedTerm, Expr.references]
    exact spec_ok resolves_nil (by simp)
  | ref pos name =>
    rw [observedTerm, Expr.references]
    exact ⟨referenceTerm_spec.emits, fun t made wide =>
      subset_append_of_subset_right _ (referenceTerm_spec.holds t made wide)⟩
  | path pos target | unary pos op target =>
    rw [observedTerm, Expr.references]
    refine (observedTerm_spec target).map fun _ within wide => ?_
    simpa [combined] using within wide
  | call pos target name args =>
    rw [observedTerm, Expr.references, resolves_append, targets_append]
    refine (observedTerm_spec target).bind fun _ inner =>
      (observedTerms_spec args).map fun _ others wide => ?_
    simpa using subset_common_append (inner wide) (others wide)
  | index pos left right | binary pos op left right =>
    rw [observedTerm, Expr.references, resolves_append, targets_append]
    refine (observedTerm_spec left).bind fun _ first =>
      (observedTerm_spec right).map fun _ second wide => ?_
    simpa [combined] using subset_common_append (first wide) (second wide)
  | list pos items =>
    rw [observedTerm, Expr.references]
    refine (observedTerms_spec items).map fun _ within wide => ?_
    simpa [combined] using within wide
  | map pos entries =>
    rw [observedTerm, Expr.references]
    refine (observedEntries_spec entries).map fun _ within wide => ?_
    simpa [combined] using within wide
termination_by sizeOf e

theorem observedTerms_spec (items : List Expr)
    : Spec (s.observedTerms items) (s.Resolves (Expr.referencesOfAll items)) fun ts =>
        ∀ wide, Term.varsOfAll wide ts ⊆ s.common wide ++ s.targets (Expr.referencesOfAll items) := by
  cases items with
  | nil =>
    rw [observedTerms, Expr.referencesOfAll]
    exact spec_ok resolves_nil (by simp)
  | cons e rest =>
    rw [observedTerms, Expr.referencesOfAll, resolves_append, targets_append]
    refine (observedTerm_spec e).bind fun _ first => (observedTerms_spec rest).map fun _ others wide => ?_
    rw [Term.varsOfAll]
    exact subset_common_append (first wide) (others wide)
termination_by sizeOf items

theorem observedEntries_spec (entries : List (Expr × Expr))
    : Spec (s.observedEntries entries) (s.Resolves (Expr.referencesOfEntries entries)) fun ts =>
        ∀ wide, Term.varsOfAll wide ts ⊆ s.common wide ++ s.targets (Expr.referencesOfEntries entries) := by
  match entries with
  | [] =>
    rw [observedEntries, Expr.referencesOfEntries]
    exact spec_ok resolves_nil (by simp)
  | (key, value) :: rest =>
    rw [observedEntries, Expr.referencesOfEntries, append_assoc, resolves_append,
      resolves_append, targets_append, targets_append]
    refine (observedTerm_spec key).bind fun _ first => (observedTerm_spec value).bind fun _ second =>
      (observedEntries_spec rest).map fun _ others wide => ?_
    rw [Term.varsOfAll, Term.varsOfAll]
    exact subset_common_append (first wide) (subset_common_append (second wide) (others wide))
termination_by sizeOf entries

end

variable {type : Option String}

/-! ### Sources -/

theorem ownerTerm_spec
    : Spec (s.ownerTerm type pos) (∃ t, type = some t ∧ s.Names t) fun t =>
        ∀ wide, t.vars wide ⊆ s.common wide := by
  cases type with
  | none => exact spec_error (by simp)
  | some type => exact typeTerm_spec.congr (by simp)

theorem ownerTerm_emits (given : type.isSome = true)
    : Emits (s.ownerTerm type pos) ↔ ∀ t ∈ type.toList, s.Names t := by
  obtain ⟨type, rfl⟩ := Option.isSome_iff_exists.mp given
  rw [ownerTerm_spec.emits]
  simp

theorem convertedTerm_spec {term : Term}
    : Spec (s.convertedTerm term type pos) (∀ t ∈ type.toList, s.Names t) fun t =>
        ∀ wide, t.vars wide ⊆ s.common wide ++ term.vars wide := by
  cases type with
  | none => exact spec_ok (by simp) fun _ => subset_append_right _ _
  | some type =>
    refine (typeTerm_spec.map fun _ named wide => ?_).congr (by simp)
    simp [named wide]

theorem methodTerm_vars (adapter name : String) (arity : Nat)
    : (methodTerm adapter name arity).vars wide ⊆ Naming.buildNames := by
  have own : "controller" ∈ Naming.buildNames := by decide
  unfold methodTerm
  split
  · simp [Term.vars_support, own]
  · simp [own]

/-- A source whose objects are built and whose types have names. -/
def Supports (s : Scope) (source : Source) : Prop :=
  source.Valid s.Has s.Knows ∧ ∀ type ∈ source.types, s.Names type

/-- The names that the term of a source may hold: common ones and what the source needs. -/
def reach (s : Scope) (wide : Bool) (source : Source) : List String :=
  s.common wide ++ source.needs s.plan.registry.get?

mutual

theorem sourceTerm_spec (source : Source)
    : Spec (s.sourceTerm source) (s.Supports source) fun t =>
        ∀ wide, t.vars wide ⊆ s.reach wide source := by
  cases source with
  | literal =>
    rw [sourceTerm]
    exact spec_ok (by simp [Supports, Source.Valid, Source.types]) (by simp)
  | list pos items =>
    rw [sourceTerm]
    exact (sourceTerms_spec items).map fun _ within wide => by
      rw [Term.vars, reach, Source.needs]
      exact within wide
  | member | constant | parsed =>
    rw [sourceTerm]
    refine (typeTerm_spec.map fun _ named wide => ?_).congr ?_
    · simpa [reach] using subset_append_of_subset_left _ (named wide)
    · simp [Supports, Source.Valid, Source.types]
  | element =>
    rw [sourceTerm]
    refine Spec.congr ⟨elementTerm_spec.emits, fun t made wide => ?_⟩ ?_
    · simp [elementTerm_spec.holds t made, reach, Source.needs]
    · simp [Supports, Source.Valid, Source.types]
  | expr pos value convertTo =>
    cases value with
    | once e =>
      rw [sourceTerm]
      refine Spec.congr ((exprTerm_spec e).bind fun _ within =>
        ⟨convertedTerm_spec.emits, fun t made wide => ?_⟩) ?_
      · refine Subset.trans (convertedTerm_spec.holds t made wide) ?_
        exact append_subset.mpr ⟨subset_append_left _ _, within wide⟩
      · simp [Supports, Source.Valid, Source.types, Resolves]
    | _ => 
      rw [sourceTerm]
      · exact spec_error (by simp [Supports, Source.Valid])
      · nofun
  | resource pos key convertTo =>
    rw [sourceTerm]
    refine Spec.congr ⟨convertedTerm_spec.emits, fun t made wide => ?_⟩ ?_
    · refine Subset.trans (convertedTerm_spec.holds t made wide) ?_
      have taken : "resources" ∈ s.common wide := buildNames_subset_common (by decide)
      simp [reach, taken]
    · simp [Supports, Source.Valid, Source.types]
  | location =>
    rw [sourceTerm]
    refine spec_ok (by simp [Supports, Source.Valid, Source.types]) fun wide => ?_
    have own : "self" ∈ s.common wide := buildNames_subset_common (by decide)
    simp [reach, own]
  | method =>
    rw [sourceTerm]
    refine spec_ok (by simp [Supports, Source.Valid, Source.types]) fun wide => ?_
    refine Subset.trans (methodTerm_vars _ _ _) ?_
    rw [reach, common, append_assoc]
    exact subset_append_left _ _
  | handler pos source =>
    rw [sourceTerm]
    refine (sourceTerm_spec source).map fun _ within wide => ?_
    simpa [reach, Source.needs] using within wide
  | absent =>
    rw [sourceTerm]
    exact spec_error (by simp [Supports, Source.Valid])
termination_by sizeOf source

theorem sourceTerms_spec (sources : List Source)
    : Spec (s.sourceTerms sources)
        (Source.AllValid s.Has s.Knows sources ∧ ∀ type ∈ Source.typesOfAll sources, s.Names type)
        fun ts => ∀ wide, Term.varsOfAll wide ts
          ⊆ s.common wide ++ Source.needsOfAll s.plan.registry.get? sources := by
  cases sources with
  | nil =>
    rw [sourceTerms]
    exact spec_ok (by simp [Source.AllValid, Source.typesOfAll]) (by simp)
  | cons source rest =>
    rw [sourceTerms]
    refine Spec.congr ((sourceTerm_spec source).bind fun _ here =>
      (sourceTerms_spec rest).map fun _ later wide => ?_) ?_
    · rw [Term.varsOfAll, Source.needsOfAll]
      exact subset_common_append (here wide) (later wide)
    · simp only [Supports, Source.AllValid, Source.typesOfAll, mem_append, or_imp, forall_and]
      exact and_and_and_comm
termination_by sizeOf sources

end

theorem sourceTerm_emits (source : Source) : Emits (s.sourceTerm source) ↔ s.Supports source :=
  (sourceTerm_spec source).emits

theorem handlerTerm_emits {adapter : String} {source : Source} (h : source.IsHandler)
    : Emits (s.handlerTerm adapter source) ↔ s.Supports source := by
  cases source with
  | method => simp [handlerTerm, Supports, Source.Valid, Source.types]
  | handler pos source => exact sourceTerm_emits (.handler pos source)
  | _ => exact h.elim

theorem argTerms_emits {args : List (String × Source)}
    : Emits (s.argTerms args) ↔ ∀ source ∈ args.map Prod.snd, s.Supports source := by
  induction args with
  | nil => simp [argTerms]
  | cons arg rest ih =>
    rw [argTerms, emits_bind_iff fun _ => emits_bind_pure, sourceTerm_emits, ih, map_cons,
      forall_mem_cons]

/-! ### Steps and elements -/

theorem stepStatement_emits {step : Step} (shaped : step.Shaped)
    : Emits (s.stepStatement var step)
      ↔ s.Supports step.source ∧ ∀ type ∈ step.owner.toList, s.Names type := by
  obtain ⟨pos, kind, target, source, owner, key⟩ := step
  unfold stepStatement
  cases kind with
  | set | append | extend =>
    cases (shaped : owner = none)
    simp only [emits_bind_pure, sourceTerm_emits]
    simp
  | put =>
    obtain ⟨rfl, given⟩ : owner = none ∧ key.isSome = true := shaped
    obtain ⟨key, rfl⟩ := Option.isSome_iff_exists.mp given
    simp only [emits_bind_pure, sourceTerm_emits]
    simp
  | attach =>
    have owned : owner.isSome = true := shaped
    rw [emits_bind_iff fun _ => emits_bind_pure, ownerTerm_emits owned, sourceTerm_emits, and_comm]
  | handler | listener | listListener =>
    obtain ⟨rfl, handler⟩ : owner = none ∧ source.IsHandler := shaped
    simp only [emits_bind_pure, handlerTerm_emits handler]
    simp
  | other => exact shaped.elim

theorem ownSourceTerm_emits (h : e.source.isSome = true)
    : Emits (s.ownSourceTerm e) ↔ ∀ source ∈ e.source.toList, s.Supports source := by
  obtain ⟨source, given⟩ := Option.isSome_iff_exists.mp h
  rw [ownSourceTerm, given]
  simpa using sourceTerm_emits source

theorem builderStatements_emits (h : e.builderType.isSome = true)
    : Emits (s.builderStatements e)
      ↔ (∀ source ∈ e.builderSteps.map (·.source), s.Supports source)
        ∧ ∀ type ∈ e.builderType.toList, s.Names type := by
  unfold builderStatements
  rw [emits_bind_iff fun _ => emits_bind_pure, emits_mapM, ownerTerm_emits h, and_comm]
  simp only [emits_bind_pure, sourceTerm_emits, forall_mem_map]

theorem inclusionStatements_emits (h : e.inclusion.isSome = true)
    (imported : ∀ i, e.inclusion = some i → (s.moduleReference? i.module).isSome = true)
    : Emits (s.inclusionStatements e) := by
  obtain ⟨i, given⟩ := Option.isSome_iff_exists.mp h
  obtain ⟨module, found⟩ := Option.isSome_iff_exists.mp (imported i given)
  simp [inclusionStatements, given, found]

/-- Given its parts, the object of an element can be made exactly when its sources are supported and
its types have names.
-/
theorem creationStatements_emits (shaped : e.Shaped)
    (imported : ∀ i, e.inclusion = some i → (s.moduleReference? i.module).isSome = true)
    : Emits (s.creationStatements e)
      ↔ (∀ source ∈ e.makers, s.Supports source) ∧ ∀ type ∈ e.makerTypes, s.Names type := by
  obtain ⟨args, source, owner, builder, _, builderSteps, inclusion, named, _, _⟩ := shaped
  unfold creationStatements constructTerm Element.makers Element.makerTypes
  cases strategy : e.strategy with
  | construct =>
    simp [strategy] at source owner builder builderSteps
    rw [emits_bind_pure, emits_bind_iff fun _ => emits_bind_pure, argTerms_emits, typeTerm_spec.emits]
    simp [source, owner, builder, builderSteps]
  | text =>
    simp [strategy] at args source owner builder builderSteps
    rw [emits_bind_pure, emits_bind_iff fun _ => emits_bind_pure, typeTerm_spec.emits,
      ownSourceTerm_emits source, and_comm]
    simp [args, owner, builder, builderSteps]
  | factory | constant =>
    simp [strategy] at args source owner builder builderSteps
    rw [emits_bind_pure, emits_bind_pure, ownerTerm_emits owner]
    simp [args, source, builder, builderSteps]
  | value =>
    simp [strategy] at args source owner builder builderSteps
    rw [emits_bind_pure, ownSourceTerm_emits source]
    simp [args, owner, builder, builderSteps]
  | copy =>
    simp [strategy] at args source owner builder builderSteps
    rw [emits_bind_pure, emits_bind_pure, ownSourceTerm_emits source]
    simp [args, owner, builder, builderSteps]
  | root =>
    simp [strategy] at args source owner builder builderSteps
    rw [emits_bind_pure, emits_bind_pure, typeTerm_spec.emits]
    simp [args, source, owner, builder, builderSteps]
  | builder =>
    simp [strategy] at args source owner builder
    rw [builderStatements_emits builder]
    simp [args, source, owner]
  | inclusion =>
    simp [strategy] at args source owner builder builderSteps inclusion
    have made := inclusionStatements_emits inclusion imported
    simp [made, args, source, owner, builder, builderSteps]
  | other name => exact (named name strategy).elim

/-- The scope after a variable is assigned. -/
def build (s : Scope) (var : String) : Scope := { s with built := var :: s.built }

/-- The statements of an element exist exactly when the sources for its object are valid before it is
made, those of its steps after, and all its types have names.
-/
theorem elementStatements_emits (shaped : e.Shaped)
    (imported : ∀ i, e.inclusion = some i → (s.moduleReference? i.module).isSome = true)
    : Emits (s.elementStatements e)
      ↔ (∀ source ∈ e.makers, source.Valid s.Has s.Knows)
        ∧ (∀ step ∈ e.steps, step.source.Valid (s.build e.var).Has (s.build e.var).Knows)
        ∧ ∀ type ∈ e.types, s.Names type := by
  have steps : Emits (e.steps.mapM ((s.build e.var).stepStatement e.var))
      ↔ (∀ step ∈ e.steps, (s.build e.var).Supports step.source)
        ∧ ∀ step ∈ e.steps, ∀ type ∈ step.owner.toList, s.Names type := by
    rw [emits_mapM, ← forall₂_and]
    exact forall₂_congr fun step member => stepStatement_emits (shaped.steps step member)
  unfold elementStatements
  rw [emits_bind_iff fun _ => emits_bind_pure, creationStatements_emits shaped imported]
  refine (and_congr Iff.rfl steps).trans ?_
  constructor
  · rintro ⟨⟨makers, makerTypes⟩, after, owners⟩
    refine ⟨fun source member => (makers source member).1,
      fun step member => (after step member).1, fun type member => ?_⟩
    rcases (e.mem_types shaped).mp member with own | ⟨step, there, owner⟩ | used | used
    · exact makerTypes type own
    · exact owners step there type (by simp [owner])
    · obtain ⟨source, there, used⟩ := used
      exact (makers source there).2 type used
    · obtain ⟨step, there, used⟩ := used
      exact (after step there).2 type used
  · rintro ⟨makers, after, types⟩
    have named {type : String} (h : e.Mentions type) : s.Names type :=
      types type ((e.mem_types shaped).mpr h)
    refine ⟨⟨fun source member => ⟨makers source member, fun type used => ?_⟩,
      fun type own => named (.inl own)⟩,
      fun step member => ⟨after step member, fun type used => ?_⟩, fun step member type owner => ?_⟩
    · exact named (.inr (.inr (.inl ⟨source, member, used⟩)))
    · exact named (.inr (.inr (.inr ⟨step, member, used⟩)))
    · exact named (.inr (.inl ⟨step, member, Option.mem_toList.mp owner⟩))

/-! ### The method -/

/-- The scope after some variables are assigned one after the other. -/
def having (s : Scope) (vars : List String) : Scope := { s with built := vars.reverse ++ s.built }

theorem having_cons (var : String) (vars : List String)
    : s.having (var :: vars) = (s.build var).having vars := by
  simp [having, build]

theorem mem_built_having {vars : List String}
    : var ∈ (s.having vars).built ↔ var ∈ vars ∨ var ∈ s.built := by
  simp [having]

/-- All elements have their statements exactly when each has them after those before it. -/
theorem orderStatements_emits (own : ∀ var e, s.plan.elements.get? var = some e → e.var = var)
    (vars : List String)
    : Emits (s.orderStatements vars)
      ↔ ∀ before var after, vars = before ++ var :: after
          → ∃ e, s.plan.elements.get? var = some e ∧ Emits ((s.having before).elementStatements e) := by
  induction vars generalizing s with
  | nil => simp [orderStatements]
  | cons first rest ih =>
    rw [orderStatements]
    cases found : s.plan.elements.get? first with
    | none =>
      refine iff_of_false (not_emits_violation _ _) fun all => ?_
      obtain ⟨e, found', _⟩ := all [] first rest rfl
      simp [found] at found'
    | some e =>
      have same := own first e found
      subst same
      rw [emits_bind_iff fun _ => emits_bind_pure]
      refine (and_congr Iff.rfl (ih (s := s.build e.var) own)).trans ?_
      constructor
      · rintro ⟨here, later⟩ before var after split
        cases before with
        | nil =>
          cases split
          exact ⟨e, found, here⟩
        | cons head before =>
          cases split
          rw [having_cons]
          exact later before var after rfl
      · intro all
        refine ⟨?_, fun before var after split => ?_⟩
        · obtain ⟨e', found', emits⟩ := all [] e.var rest rfl
          rw [found] at found'
          cases found'
          exact emits
        · rw [← having_cons]
          exact all (e.var :: before) var after (by rw [split, cons_append])

theorem scope_orderStatements (own : ∀ var e, s.plan.elements.get? var = some e → e.var = var)
    {vars : List String} {statements : List Statement} {last : Scope}
    (h : s.orderStatements vars = .ok (statements, last))
    : last = s.having vars := by
  induction vars generalizing s statements with
  | nil =>
    cases h
    rfl
  | cons first rest ih =>
    rw [orderStatements] at h
    cases found : s.plan.elements.get? first with
    | none =>
      rw [found] at h
      cases h
    | some e =>
      have same := own first e found
      subst same
      rw [found] at h
      obtain ⟨_, _, h⟩ := exists_of_bind_ok h
      obtain ⟨⟨more, last'⟩, later, h⟩ := exists_of_bind_ok h
      cases h
      rw [having_cons]
      exact ih (s := s.build e.var) own later

/-- A check that comes before the rest. -/
theorem emits_guard {p : Bool} {cause : Cause} {rest : Emit α}
    : Emits (if p = true then rest else violation cause pos >>= fun _ : Unit => rest)
      ↔ p = true ∧ Emits rest := by
  cases p with
  | true => simp
  | false => exact iff_of_false (not_emits_violation cause pos) (by simp)

theorem bindingTerm_emits {value : Value}
    : Emits (s.bindingTerm value) ↔ ∃ e, value = .once e ∧ s.Resolves e.references := by
  cases value with
  | once e =>
    rw [bindingTerm, emits_bind_iff (p := True) fun _ => by cases e <;> simp,
      (observedTerm_spec e).emits]
    simp
  | _ => simp [bindingTerm]

theorem bindingStatement_emits {b : Binding}
    : Emits (s.bindingStatement b)
      ↔ b.var ∈ s.built ∧ ∃ e, b.value = .once e ∧ s.Resolves e.references := by
  unfold bindingStatement
  refine emits_guard.trans ?_
  rw [contains_iff_mem, emits_bind_pure, bindingTerm_emits]

theorem body_emits (own : ∀ var e, s.plan.elements.get? var = some e → e.var = var)
    : Emits s.body
      ↔ Emits (s.orderStatements s.plan.order)
        ∧ (∀ b ∈ s.plan.bindings, Emits ((s.having s.plan.order).bindingStatement b))
        ∧ s.plan.rootVar ∈ (s.having s.plan.order).built := by
  unfold body
  cases ordered : s.orderStatements s.plan.order with
  | error cause => exact iff_of_false (not_emits_error cause) fun all => not_emits_error cause all.1
  | ok result =>
    obtain ⟨statements, last⟩ := result
    obtain rfl := scope_orderStatements own ordered
    rw [and_iff_right (emits_ok _), ← emits_mapM, ← contains_iff_mem]
    change Emits (mapM (s.having s.plan.order).bindingStatement s.plan.bindings >>= _) ↔ _
    rw [emits_bind_iff fun _ => emits_guard.trans (and_iff_left (emits_pure _))]
    rfl

end Scope

/-- A module exists exactly when its controller has a name and its method can be written. -/
theorem generate_emits (p : Plan)
    : Emits (generate p)
      ↔ Emits (Scope.controllerTerm { plan := p, imports := importLines p })
        ∧ Emits (Scope.body { plan := p, imports := importLines p }) := by
  unfold generate
  rw [emits_bind_iff fun _ => emits_bind_pure]

theorem imports_of_generate {p : Plan} {code : Module} (h : generate p = .ok code)
    : code.imports = importLines p := by
  obtain ⟨controller, _, h⟩ := exists_of_bind_ok h
  obtain ⟨body, _, h⟩ := exists_of_bind_ok h
  cases h
  rfl

/-! ### Imports -/

/-- The name that an import binds: the other name of the module, or its first part. -/
def ImportLine.bound (line : ImportLine) : String := line.shortName.getD (Naming.firstPart line.module)

/-- The name by which a module is known when its first part is a variable. -/
def otherName (module : String) : String :=
  "_" ++ module.map fun c => if c = '.' then '_' else c

/-- A variable of the method has the name of a module's first part. -/
def Shadowed (p : Plan) (module : String) : Prop := Naming.firstPart module ∈ localNames p

theorem mem_importLines {p : Plan} {line : ImportLine}
    : line ∈ importLines p
      ↔ (line.module ∈ p.modules ∧ Shadowed p line.module
          ∧ line.shortName = some (otherName line.module))
        ∨ line.module ∈ p.modules ∧ ¬Shadowed p line.module ∧ line.shortName = none := by
  have parts (module : String)
      : (if (localNames p).contains (Naming.firstPart module) then
          (⟨module, some (otherName module)⟩ : ImportLine)
        else ⟨module, none⟩) = line
        ↔ module = line.module
          ∧ ((Shadowed p module ∧ line.shortName = some (otherName module))
            ∨ ¬Shadowed p module ∧ line.shortName = none) := by
    obtain ⟨name, short⟩ := line
    by_cases shadowed : Naming.firstPart module ∈ localNames p
    · simp [Shadowed, shadowed, eq_comm]
    · simp [Shadowed, shadowed, eq_comm]
  constructor
  · intro member
    obtain ⟨module, there, made⟩ := mem_map.mp member
    obtain ⟨rfl, which⟩ := (parts module).mp made
    have there := mem_mergeSort.mp there
    exact which.imp (⟨there, ·⟩) (⟨there, ·⟩)
  · intro which
    refine mem_map.mpr ⟨line.module, mem_mergeSort.mpr ?_, (parts _).mpr ⟨rfl, ?_⟩⟩
    · exact which.elim And.left And.left
    · exact which.imp And.right And.right

theorem otherName_eq (module : String)
    : otherName module
      = String.ofList ('_' :: module.toList.map fun c => if c = '.' then '_' else c) := by
  rw [← String.toList_inj]
  simp [otherName]

/-- Other names have no dots. -/
theorem firstPart_otherName (module : String)
    : Naming.firstPart (otherName module) = otherName module := by
  have plain : ∀ c ∈ '_' :: module.toList.map (fun c => if c = '.' then '_' else c),
      (c != '.') = true := by
    refine forall_mem_cons.mpr ⟨rfl, forall_mem_map.mpr fun c _ => ?_⟩
    split
    · rfl
    · simpa using ‹¬c = '.'›
  have whole := @takeWhile_append_of_pos _ (· != '.') _ [] plain
  rw [append_nil, takeWhile_nil, append_nil] at whole
  rw [otherName_eq, Naming.firstPart, String.toList_ofList, whole]

/-- The first part of the name by which a module is known is what its import binds. Where that is a
variable, it is the module's other name.
-/
theorem bound_importLines {p : Plan} {line : ImportLine} (h : line ∈ importLines p)
    : Naming.firstPart line.reference = line.bound
      ∧ (line.bound ∈ localNames p → line.shortName = some line.bound) := by
  rcases mem_importLines.mp h with ⟨-, -, short⟩ | ⟨-, plain, short⟩
  · rw [ImportLine.reference, ImportLine.bound, short]
    exact ⟨firstPart_otherName _, fun _ => rfl⟩
  · rw [ImportLine.reference, ImportLine.bound, short]
    exact ⟨rfl, fun shadowed => (plain shadowed).elim⟩

end Fxml.Code

