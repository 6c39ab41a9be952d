import Mathlib.Logic.Relation
import Fxml.Proofs.Outcome
import Fxml.Proofs.Table
import Fxml.Types.Catalog

/-! What a type of a catalog inherits. A table can be completed exactly when no type is its own
ancestor; each type then has the members that it and its ancestors declare.
-/

open List Fxml.Table

namespace Fxml.Catalog

open Relation

variable {types full : Table TypeDescriptor} {seen bases : List String}
  {name base ancestor other : String} {own d below : TypeDescriptor} {e : Error}

/-! ### Ancestors and what they pass on -/

/-- The table declares `base` as a base of `name`. Nothing extends a name outside of the table. -/
def Extends (types : Table TypeDescriptor) (name base : String) : Prop :=
  ∃ own, types.get? name = some own ∧ base ∈ own.bases

/-- A chain of declared bases leads from `name` to `ancestor`. -/
def Ancestor (types : Table TypeDescriptor) (name ancestor : String) : Prop :=
  TransGen (Extends types) name ancestor

/-- What a type passes on to those that extend it. -/
inductive Feature where
  | base | property | event | staticProperty | method
deriving DecidableEq

/-- The names under which a descriptor has a feature. -/
def Feature.names : Feature → TypeDescriptor → List String
  | .base, d => d.bases
  | .property, d => d.properties.keys
  | .event, d => d.events.keys
  | .staticProperty, d => d.staticProperties.keys
  | .method, d => d.methods.keys

/-- A type of the table or one of its ancestors declares the feature. -/
def Passed (types : Table TypeDescriptor) (feature : Feature) (name member : String) : Prop :=
  ∃ ancestor own, ReflTransGen (Extends types) name ancestor ∧ types.get? ancestor = some own
    ∧ member ∈ feature.names own

theorem eq_of_reflTransGen_absent (absent : types.get? name = none)
    (chain : ReflTransGen (Extends types) name ancestor)
    : ancestor = name := by
  rcases chain.cases_head with same | ⟨_, ⟨own, found, _⟩, _⟩
  · exact same.symm
  · exact nomatch absent.symm.trans found

theorem not_passed_of_absent (absent : types.get? name = none) (feature : Feature) (member : String)
    : ¬Passed types feature name member := by
  rintro ⟨ancestor, own, chain, found, _⟩
  cases eq_of_reflTransGen_absent absent chain
  exact nomatch absent.symm.trans found

/-- What a type of the table has is its own or comes from a base. -/
theorem passed_iff (found : types.get? name = some own) (feature : Feature) (member : String)
    : Passed types feature name member
      ↔ member ∈ feature.names own ∨ ∃ base ∈ own.bases, Passed types feature base member := by
  constructor
  · rintro ⟨ancestor, declared, chain, there, listed⟩
    rcases chain.cases_head with same | ⟨base, ⟨own', found', above⟩, chain⟩
    · cases same
      cases found.symm.trans there
      exact .inl listed
    · cases found.symm.trans found'
      exact .inr ⟨base, above, ancestor, declared, chain, there, listed⟩
  · rintro (listed | ⟨base, above, ancestor, declared, chain, there, listed⟩)
    · exact ⟨name, own, .refl, found, listed⟩
    · exact ⟨ancestor, declared, chain.head ⟨own, found, above⟩, there, listed⟩

theorem passed_base_iff
    : Passed types .base name ancestor ↔ Ancestor types name ancestor := by
  unfold Ancestor
  rw [TransGen.tail'_iff]
  constructor
  · rintro ⟨last, own, chain, found, listed⟩
    exact ⟨last, chain, own, found, listed⟩
  · rintro ⟨last, chain, own, found, listed⟩
    exact ⟨last, own, chain, found, listed⟩

/-! ### Names in front of names -/

theorem mem_addName {names : List String}
    : other ∈ addName names name ↔ other ∈ names ∨ other = name := by
  unfold addName
  split
  · rename_i there
    constructor
    · exact .inl
    · rintro (old | rfl)
      · exact old
      · simpa using there
  · simp

theorem nodup_addName {names : List String} (unique : names.Nodup) (name : String)
    : (addName names name).Nodup := by
  unfold addName
  split
  · exact unique
  · rename_i absent
    refine nodup_append.mpr ⟨unique, by simp, ?_⟩
    intro a ha b hb same
    exact absent (by simpa using mem_singleton.mp hb ▸ same ▸ ha)

theorem mem_foldl_addName (added names : List String)
    : other ∈ added.foldl addName names ↔ other ∈ names ∨ other ∈ added := by
  induction added generalizing names with
  | nil => simp
  | cons first rest ih =>
    rw [foldl_cons, ih, mem_addName, mem_cons, or_assoc]

theorem nodup_foldl_addName (added : List String) {names : List String} (unique : names.Nodup)
    : (added.foldl addName names).Nodup :=
  foldlRecOn added addName unique fun _ unique name _ => nodup_addName unique name

/-- The keys of both tables are those of the one put over the other. -/
theorem mem_keys_update {α : Type} (t other : Table α) {key : String}
    : key ∈ (t.update other).keys ↔ key ∈ t.keys ∨ key ∈ other.keys := by
  unfold update
  induction other generalizing t with
  | nil => simp [Table.keys]
  | cons entry rest ih =>
    rw [foldl_cons, ih, mem_keys_put, Table.keys_cons, mem_cons]
    tauto

/-! ### One type and its bases -/

/-- A descriptor with one more base, and with the members of that base if it is in the table. -/
def withBase (below : TypeDescriptor) (base : String) : Option TypeDescriptor → TypeDescriptor
  | none => { below with bases := addName below.bases base }
  | some parent =>
    { overlay below parent with bases := (base :: parent.bases).foldl addName below.bases }

/-- What is inherited, with what the type itself declares over it. -/
def completed (inherited own : TypeDescriptor) : TypeDescriptor :=
  { overlay inherited own with
    bases := addName inherited.bases "object"
    constructors := own.constructors
    constants := own.constants
    factories := own.factories
    members := own.members
    valueOf := own.valueOf
    builder := own.builder
    copyable := own.copyable }

/-- The bases of a type one after the other, each asked for from below the type. -/
def withBases (types : Table TypeDescriptor) (seen : List String) (bases : List String)
    (below : TypeDescriptor)
    : Outcome TypeDescriptor :=
  bases.foldlM (fun below base => do return withBase below base (← inherit types seen base)) below

theorem inherit_absent (absent : types.get? name = none) : inherit types seen name = .ok none := by
  unfold inherit
  split
  · rfl
  · rename_i found
    cases absent.symm.trans found

theorem inherit_seen (found : types.get? name = some own) (again : name ∈ seen)
    : inherit types seen name = .error (.cyclicBases (seen ++ [name])) := by
  unfold inherit
  split
  · rename_i absent
    cases absent.symm.trans found
  · rw [dif_pos (by simpa using again)]

theorem inherit_present (found : types.get? name = some own) (new : name ∉ seen)
    : inherit types seen name
      = withBases types (seen ++ [name]) own.bases
          { TypeDescriptor.blank name with module := own.module }
        >>= fun inherited => pure (some (completed inherited own)) := by
  unfold inherit
  split
  · rename_i absent
    cases absent.symm.trans found
  · rename_i own' found'
    cases found.symm.trans found'
    rw [dif_neg (by simpa using new)]
    refine congrArg₂ bind (congrArg (foldlM · _ own.bases) ?_) rfl
    funext below base
    rcases inherit types (seen ++ [name]) base with _ | _ | _ <;> rfl

theorem mem_names_completed (inherited own : TypeDescriptor) (feature : Feature) (member : String)
    : member ∈ feature.names (completed inherited own)
      ↔ member ∈ feature.names inherited
        ∨ if feature = .base then member = "object" else member ∈ feature.names own := by
  cases feature with
  | base => exact mem_addName
  | _ => exact mem_keys_update _ _

theorem mem_names_withBase (below : TypeDescriptor) (base : String)
    (parent? : Option TypeDescriptor) (feature : Feature) (member : String)
    : member ∈ feature.names (withBase below base parent?)
      ↔ member ∈ feature.names below ∨ (feature = .base ∧ member = base)
        ∨ ∃ parent, parent? = some parent ∧ member ∈ feature.names parent := by
  cases parent? with
  | none => cases feature <;> simp [withBase, Feature.names, mem_addName]
  | some parent =>
    cases feature with
    | base => simp [withBase, Feature.names, mem_foldl_addName, mem_addName, or_assoc]
    | _ => simpa [withBase, overlay, Feature.names] using mem_keys_update _ _

theorem nodup_withBase (unique : below.bases.Nodup) (base : String)
    (parent? : Option TypeDescriptor)
    : (withBase below base parent?).bases.Nodup := by
  cases parent? with
  | none => exact nodup_addName unique base
  | some parent => exact nodup_foldl_addName (base :: parent.bases) unique

/-- Where the bases can all be had, each has passed on what it has. -/
theorem mem_names_withBases {inherited : TypeDescriptor}
    (h : withBases types seen bases below = .ok inherited)
    : (∀ base ∈ bases, ∃ parent?, inherit types seen base = .ok parent?)
      ∧ (below.bases.Nodup → inherited.bases.Nodup)
      ∧ ∀ (feature : Feature) member, member ∈ feature.names inherited
        ↔ member ∈ feature.names below
          ∨ ∃ base ∈ bases, (feature = .base ∧ member = base)
            ∨ ∃ parent, inherit types seen base = .ok (some parent)
              ∧ member ∈ feature.names parent := by
  induction bases generalizing below with
  | nil =>
    cases h
    exact ⟨nofun, id, by simp⟩
  | cons base rest ih =>
    unfold withBases at h
    rw [foldlM_cons] at h
    obtain ⟨next, first, h⟩ := exists_of_bind_ok h
    obtain ⟨parent?, found, same⟩ := exists_of_bind_ok first
    cases same
    obtain ⟨each, unique, names⟩ := ih h
    refine ⟨forall_mem_cons.mpr ⟨⟨parent?, found⟩, each⟩,
      fun start => unique (nodup_withBase start base parent?), fun feature member => ?_⟩
    rw [names, mem_names_withBase, exists_mem_cons_iff, found]
    simp only [Except.ok.injEq, or_assoc]

/-- Where a fold over bases fails, one of them cannot be had. -/
theorem error_of_withBases (h : withBases types seen bases below = .error e)
    : ∃ base ∈ bases, inherit types seen base = .error e := by
  induction bases generalizing below with
  | nil => cases h
  | cons base rest ih =>
    unfold withBases at h
    rw [foldlM_cons] at h
    rcases error_of_bind h with first | ⟨next, _, later⟩
    · rcases error_of_bind first with here | ⟨_, _, other⟩
      · exact ⟨base, mem_cons_self, here⟩
      · cases other
    · obtain ⟨other, there, fails⟩ := ih later
      exact ⟨other, mem_cons_of_mem _ there, fails⟩

/-! ### The whole table -/

/-- What is had of a name: nothing of one outside of the table, else a descriptor with all that is
passed to it and every ancestor named once.
-/
structure Inherited (types : Table TypeDescriptor) (name : String)
    (found : Option TypeDescriptor) : Prop where
  absent : found = none ↔ types.get? name = none
  unique : ∀ d, found = some d → d.bases.Nodup
  names : ∀ d, found = some d → ∀ (feature : Feature) member,
    member ∈ feature.names d
      ↔ Passed types feature name member ∨ feature = .base ∧ member = "object"

/-- A type that can be had has what is passed to it, and no way up from it comes back to a type on
the way to it.
-/
theorem inherited_of_inherit {found : Option TypeDescriptor}
    (h : inherit types seen name = .ok found)
    : Inherited types name found
      ∧ ∀ ancestor ∈ seen, ancestor ∈ types.keys → ¬ReflTransGen (Extends types) name ancestor := by
  induction seen, name using inherit.induct types generalizing found with
  | case1 seen name absent =>
    cases inherit_absent absent ▸ h
    refine ⟨⟨by simp [absent], nofun, nofun⟩, fun ancestor _ known chain => ?_⟩
    cases eq_of_reflTransGen_absent absent chain
    exact get?_eq_none_iff.mp absent known
  | case2 seen name own here again =>
    exact nomatch inherit_seen here (by simpa using again) ▸ h
  | case3 seen name own here new _ ih =>
    have new : name ∉ seen := by simpa using new
    obtain ⟨inherited, folded, same⟩ := exists_of_bind_ok (inherit_present here new ▸ h)
    cases same
    obtain ⟨each, unique, names⟩ := mem_names_withBases folded
    refine ⟨⟨by simp [here], ?_, ?_⟩, ?_⟩
    · rintro d ⟨⟩
      exact nodup_addName (unique nodup_nil) "object"
    · rintro d ⟨⟩ feature member
      rw [mem_names_completed, names, passed_iff here]
      have start : member ∉ feature.names { TypeDescriptor.blank name with module := own.module } := by
        cases feature <;> exact not_mem_nil
      -- The induction speaks of the bases, which were had with this name on the way.
      have above : ∀ base ∈ own.bases,
          ((∃ parent, inherit types (seen ++ [name]) base = .ok (some parent)
              ∧ member ∈ feature.names parent)
            → Passed types feature base member ∨ feature = .base ∧ member = "object")
          ∧ (Passed types feature base member
            → ∃ parent, inherit types (seen ++ [name]) base = .ok (some parent)
              ∧ member ∈ feature.names parent) := by
        intro base listed
        obtain ⟨parent?, had⟩ := each base listed
        obtain ⟨spec, _⟩ := ih base had
        cases parent? with
        | none => simp [had, not_passed_of_absent (spec.absent.mp rfl)]
        | some parent => simp [had, spec.names parent rfl]; exact .inl
      have mine : feature = .base → feature.names own = own.bases := by rintro rfl; rfl
      grind
    · intro ancestor there known chain
      rcases chain.cases_head with rfl | ⟨base, ⟨own', found', above⟩, chain⟩
      · exact new there
      · cases here.symm.trans found'
        obtain ⟨parent?, had⟩ := each base above
        exact (ih base had).2 ancestor (mem_append_left _ there) known chain

/-- A type cannot be had only where some type is its own ancestor. -/
theorem cycle_of_inherit_error (h : inherit types seen name = .error e)
    (way : ∀ below ∈ seen, Ancestor types below name)
    : (∃ path, e = .cyclicBases path) ∧ ∃ other, Ancestor types other other := by
  induction seen, name using inherit.induct types with
  | case1 seen name absent => exact nomatch inherit_absent absent ▸ h
  | case2 seen name own here again =>
    have again : name ∈ seen := by simpa using again
    cases inherit_seen here again ▸ h
    exact ⟨⟨_, rfl⟩, name, way name again⟩
  | case3 seen name own here new _ ih =>
    rw [inherit_present here (by simpa using new)] at h
    obtain folded | ⟨_, _, h⟩ := error_of_bind h
    · obtain ⟨base, above, fails⟩ := error_of_withBases folded
      have step : Extends types name base := ⟨own, here, above⟩
      refine ih base fails fun below there => ?_
      rcases mem_append.mp there with before | last
      · exact (way below before).tail step
      · cases mem_singleton.mp last
        exact .single step
    · cases h

/-- Rows for some keys, without those that have nothing, give back what each key has. -/
theorem get?_of_rows {keys : List String} {all : List (String × Option TypeDescriptor)}
    (rows : keys.mapM (fun key => do return (key, ← inherit types [] key)) = .ok all)
    (name : String)
    : (name ∈ keys → inherit types [] name
        = .ok (get? (all.filterMap fun (key, d) => d.map fun d => (key, d)) name))
      ∧ (name ∉ keys
        → get? (all.filterMap fun (key, d) => d.map fun d => (key, d)) name = none) := by
  have each := forall₂_of_mapM_ok rows
  clear rows
  induction each with
  | nil => exact ⟨nofun, fun _ => rfl⟩
  | @cons key entry keys all first _ ih =>
    obtain ⟨found, had, same⟩ := exists_of_bind_ok first
    cases same
    by_cases here : name = key
    · cases here
      refine ⟨fun _ => ?_, fun other => (other mem_cons_self).elim⟩
      cases found with
      | none =>
        by_cases again : name ∈ keys
        · exact ih.1 again
        · exact had.trans (congrArg _ (ih.2 again).symm)
      | some d => simpa [get?_cons] using had
    · cases found with
      | none => simpa [here] using ih
      | some d => simpa [get?_cons, here] using ih

/-- A completed table has of every name what can be had of it. -/
theorem inherit_of_inheritAll (built : inheritAll types = .ok full) (name : String)
    : inherit types [] name = .ok (full.get? name) := by
  obtain ⟨all, rows, same⟩ := exists_of_bind_ok built
  cases same
  obtain ⟨listed, unlisted⟩ := get?_of_rows rows name
  by_cases known : name ∈ types.keys
  · exact listed known
  · exact (inherit_absent (get?_eq_none_iff.mpr known)).trans (congrArg _ (unlisted known).symm)

theorem cycle_of_inheritAll_error (fails : inheritAll types = .error e)
    : (∃ path, e = .cyclicBases path) ∧ ∃ name, Ancestor types name name := by
  rcases error_of_bind fails with rows | ⟨_, _, other⟩
  · obtain ⟨name, _, row⟩ := exists_of_mapM_error rows
    rcases error_of_bind row with fails | ⟨_, _, other⟩
    · exact cycle_of_inherit_error fails nofun
    · cases other
  · cases other

/-- What a completed catalog says of a type: its ancestors, each once and not the type itself, and
the names of what it and they declare.
-/
structure Complete (types : Table TypeDescriptor) (name : String) (d : TypeDescriptor) : Prop where
  unique : d.bases.Nodup
  proper : name ∉ d.bases
  bases : ∀ base, base ∈ d.bases ↔ Ancestor types name base ∨ base = "object"
  members : ∀ (feature : Feature) member, feature ≠ .base →
    (member ∈ feature.names d ↔ Passed types feature name member)

section

variable (built : inheritAll types = .ok full)
include built

theorem inherited_of_inheritAll (name : String)
    : Inherited types name (full.get? name) :=
  (inherited_of_inherit (inherit_of_inheritAll built name)).1

theorem mem_bases_iff (found : full.get? name = some d)
    : base ∈ d.bases ↔ Ancestor types name base ∨ base = "object" := by
  simpa [passed_base_iff, Feature.names]
    using (inherited_of_inheritAll built name).names d found .base base

theorem not_ancestor_self (name : String)
    : ¬Ancestor types name name := by
  intro cycle
  obtain ⟨base, ⟨own, here, above⟩, chain⟩ := TransGen.head'_iff.mp cycle
  have had := inherit_of_inheritAll built name
  rw [inherit_present here not_mem_nil] at had
  obtain ⟨inherited, folded, _⟩ := exists_of_bind_ok had
  obtain ⟨parent?, had⟩ := (mem_names_withBases folded).1 base above
  exact (inherited_of_inherit had).2 name (by simp) (mem_keys_of_get? here) chain

theorem complete_of_inheritAll (known : name ∈ types.keys) (proper : name ≠ "object")
    : ∃ d, full.get? name = some d ∧ Complete types name d := by
  have spec := inherited_of_inheritAll built name
  cases found : full.get? name with
  | none => exact absurd known (get?_eq_none_iff.mp (spec.absent.mp found))
  | some d =>
    refine ⟨d, rfl, spec.unique d found, fun self => ?_, fun base => mem_bases_iff built found,
      fun feature member other => ?_⟩
    · rcases (mem_bases_iff built found).mp self with cycle | same
      · exact not_ancestor_self built name cycle
      · exact proper same
    · simpa [other] using spec.names d found feature member

end

theorem exists_of_acyclic (acyclic : ¬∃ name, Ancestor types name name)
    : ∃ full, inheritAll types = .ok full := by
  cases built : inheritAll types with
  | error e => exact (acyclic (cycle_of_inheritAll_error built).2).elim
  | ok full => exact ⟨full, rfl⟩

/-- A table in which every base ranks below what extends it has no cycle. -/
theorem acyclic_of_rank (rank : String → Nat)
    (falls : ∀ entry ∈ types, ∀ base ∈ entry.2.bases, rank base < rank entry.1)
    : ¬∃ name, Ancestor types name name := by
  have step : ∀ {name base}, Extends types name base → rank base < rank name := by
    rintro name base ⟨own, found, above⟩
    exact falls (name, own) (mem_of_get? found) base above
  have below : ∀ {name ancestor}, Ancestor types name ancestor → rank ancestor < rank name := by
    intro name ancestor chain
    induction chain with
    | single first => exact step first
    | tail _ last lower => exact Nat.lt_trans (step last) lower
  exact fun ⟨name, cycle⟩ => Nat.lt_irrefl _ (below cycle)

/-- A table of types can be completed exactly when no type is its own ancestor, and it is completed by
the ancestors of each type and what they declare. Primitive types stay as they are.
-/
theorem inheritAll_closure (types : Table TypeDescriptor)
    : ((∃ path, inheritAll types = .error (.cyclicBases path)) ↔ ∃ name, Ancestor types name name)
      ∧ ((¬∃ name, Ancestor types name name) → ∃ full, inheritAll types = .ok full
        ∧ ∀ name ∈ types.keys, TypeName.isPrimitive name = false
          → ∃ d, (source full).describe name = some d ∧ Complete types name d) := by
  cases built : inheritAll types with
  | error e =>
    obtain ⟨⟨path, rfl⟩, cycle⟩ := cycle_of_inheritAll_error built
    exact ⟨⟨fun _ => cycle, fun _ => ⟨path, rfl⟩⟩, fun acyclic => (acyclic cycle).elim⟩
  | ok full =>
    refine ⟨⟨nofun, fun ⟨name, cycle⟩ => (not_ancestor_self built name cycle).elim⟩,
      fun _ => ⟨full, rfl, fun name known plain => ?_⟩⟩
    have proper : name ≠ "object" := by
      rintro rfl
      exact nomatch plain
    simpa [source, plain] using complete_of_inheritAll built known proper

/-- A square is a shape through either of two ways, and has what both declare. -/
def shapes : Table TypeDescriptor :=
  [("ui.Square", { TypeDescriptor.blank "ui.Square" with bases := ["ui.Box", "ui.Fill"] }),
    ("ui.Fill", { TypeDescriptor.blank "ui.Fill" with
      bases := ["ui.Pen"], properties := [("color", { name := "color" })] }),
    ("ui.Box", { TypeDescriptor.blank "ui.Box" with bases := ["ui.Pen"] }),
    ("ui.Pen", { TypeDescriptor.blank "ui.Pen" with events := [("on_draw", "object")] })]

theorem inheritAll_shapes
    : ∃ full, inheritAll shapes = .ok full
      ∧ ∃ d, (source full).describe "ui.Square" = some d ∧ d.bases.Nodup ∧ "ui.Pen" ∈ d.bases
        ∧ "color" ∈ d.properties.keys ∧ "on_draw" ∈ d.events.keys := by
  have acyclic : ¬∃ name, Ancestor shapes name name :=
    acyclic_of_rank (fun name => if name = "ui.Square" then 2 else if name = "ui.Pen" then 0 else 1)
      (by decide)
  obtain ⟨full, built, each⟩ := (inheritAll_closure shapes).2 acyclic
  obtain ⟨d, described, whole⟩ := each "ui.Square" (by decide) (by decide)
  have step : Extends shapes "ui.Square" "ui.Fill" := ⟨_, rfl, by decide⟩
  have next : Extends shapes "ui.Fill" "ui.Pen" := ⟨_, rfl, by decide⟩
  refine ⟨full, built, d, described, whole.unique, ?_, ?_, ?_⟩
  · exact (whole.bases _).mpr (.inl (.tail (.single step) next))
  · exact (whole.members .property _ nofun).mpr ⟨_, _, .single step, rfl, by decide⟩
  · exact (whole.members .event _ nofun).mpr ⟨_, _, .tail (.single step) next, rfl, by decide⟩

/-- The table declares a base of a primitive type. -/
def numbers : Table TypeDescriptor :=
  [("int", { TypeDescriptor.blank "int" with bases := ["ui.Number"] })]

/-- A primitive type stays as it is, whatever the table declares. -/
theorem primitive_inherits_nothing
    : ∃ full, inheritAll numbers = .ok full ∧ Ancestor numbers "int" "ui.Number"
      ∧ ∃ d, (source full).describe "int" = some d ∧ "ui.Number" ∉ d.bases := by
  have step : Extends numbers "int" "ui.Number" := ⟨_, rfl, by decide⟩
  obtain ⟨full, built⟩ := exists_of_acyclic
    (acyclic_of_rank (fun name => if name = "int" then 1 else 0) (by decide : ∀ entry ∈ numbers, _))
  exact ⟨full, built, .single step, _, rfl, by decide⟩

end Fxml.Catalog
