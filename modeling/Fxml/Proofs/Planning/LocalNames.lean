import Fxml.Code.Emit
import Fxml.Proofs.Document.Ranks
import Fxml.Proofs.Planning.Consistency
import Fxml.Proofs.Planning.Framing
import Fxml.Proofs.Planning.LegalNames

/-! The local variables of a plan, with and without errors: each has a name of its own that the
generated method may use.
-/

open List Std.Do Fxml.Table

set_option mvcgen.warning false

namespace Fxml.Planning

variable {name var : String} {namer : Namer} {α : Type} {c : Context} {s t : State} {k core : Core}
  {reserved : List String} {e e' : Element} {d : Draft} {node : Node} {hint tag source : String}
  {origin : Origin}

/-! ### Elements with names of their own -/

/-- A name in use that may be a variable and is not that of a node. -/
structure Core.Hides (k : Core) (reserved : List String) (name : String) : Prop where
  taken : name ∈ k.namer.taken
  hidden : ∀ rank, (rank, name) ∉ k.vars
  legal : Naming.Legal reserved name

/-- An element that may be put: its variable belongs to its node, and the variables of its builders
to no other element.
-/
structure Fits (reserved : List String) (k : Core) (e : Element) : Prop where
  named : (e.order, e.var) ∈ k.vars
  distinct : e.builderVars.Nodup
  builders : ∀ name ∈ e.builderVars, k.Hides reserved name
  apart
    : ∀ name ∈ e.builderVars, ∀ var e', (var, e') ∈ k.elements → var ≠ e.var → name ∉ e'.builderVars

/-- What holds of names and elements at every point of a run. -/
structure Lawful (reserved : List String) (k : Core) : Prop where
  ranked : (k.vars.map Prod.fst).Nodup
  taken : ∀ rank var, (rank, var) ∈ k.vars → var ∈ k.namer.taken
  avoids : Naming.buildNames ++ reserved ⊆ k.namer.taken
  legal : ∀ rank var, (rank, var) ∈ k.vars → Naming.Legal reserved var
  unique : k.elements.keys.Nodup
  fits : ∀ var e, (var, e) ∈ k.elements → e.var = var ∧ Fits reserved k e

/-- A name that may become that of a builder. -/
structure Spare (reserved : List String) (k : Core) (name : String) : Prop where
  hides : k.Hides reserved name
  unused : ∀ var e, (var, e) ∈ k.elements → name ∉ e.builderVars

theorem Fits.of_spare (named : (e.order, e.var) ∈ k.vars) (distinct : e.builderVars.Nodup)
    (spare : ∀ name ∈ e.builderVars, Spare reserved k name)
    : Fits reserved k e where
  named := named
  distinct := distinct
  builders name there := (spare name there).hides
  apart name there var e' member _ := (spare name there).unused var e' member

/-- Only the variables of an element matter, and its rank. -/
@[grind →] theorem Fits.alike (h : Fits reserved k e) (same : Alike e e') : Fits reserved k e' := by
  obtain ⟨var, order, builders⟩ := same
  exact ⟨var ▸ order ▸ h.named, builders ▸ h.distinct, builders ▸ h.builders,
    builders ▸ var ▸ h.apart⟩

/-! ### Names that are given out and elements that are put -/

def Core.put (k : Core) (e : Element) : Core := { k with elements := k.elements.put e.var e }

def Core.drop (k : Core) (var : String) : Core := { k with elements := k.elements.erase var }

section

variable (h : Lawful reserved k)
include h

/-- A name is given out. -/
theorem Lawful.take (taken : namer.taken = name :: k.namer.taken)
    : Lawful reserved { k with namer := namer } where
  ranked := h.ranked
  taken rank var member := taken ▸ mem_cons_of_mem _ (h.taken rank var member)
  avoids := taken ▸ subset_cons_of_subset _ h.avoids
  legal := h.legal
  unique := h.unique
  fits var e member := by
    obtain ⟨same, fits⟩ := h.fits var e member
    refine ⟨same, fits.named, fits.distinct, fun other there => ?_, fits.apart⟩
    have old := fits.builders other there
    exact ⟨taken ▸ mem_cons_of_mem _ old.taken, old.hidden, old.legal⟩

theorem Lawful.hides_take (usable : k.namer.usable name = true)
    (taken : namer.taken = name :: k.namer.taken)
    : Core.Hides { k with namer := namer } reserved name where
  taken := taken ▸ mem_cons_self
  hidden rank member := Namer.not_mem_of_usable usable (h.taken rank name member)
  legal := Namer.legal_of_usable h.avoids usable

theorem Lawful.unused (usable : k.namer.usable name = true) (member : (var, e) ∈ k.elements)
    : name ∉ e.builderVars :=
  fun there => Namer.not_mem_of_usable usable ((h.fits var e member).2.builders name there).taken

/-- A node without a variable gets a usable name. -/
theorem Lawful.give {rank : Nat} (usable : k.namer.usable name = true)
    (taken : namer.taken = name :: k.namer.taken) (new : ∀ var, (rank, var) ∉ k.vars)
    : Lawful reserved { k with namer := namer, vars := (rank, name) :: k.vars } := by
  have more := h.take taken
  have hides := h.hides_take usable taken
  refine {
    ranked := nodup_cons.mpr ⟨fun member => ?_, h.ranked⟩
    taken := fun rank' var member => ?_
    avoids := more.avoids
    legal := fun rank' var member => ?_
    unique := h.unique
    fits := fun var e member => ?_
  }
  · obtain ⟨⟨_, var⟩, there, rfl⟩ := mem_map.mp member
    exact new var there
  · rcases mem_cons.mp member with same | old
    · cases same
      exact hides.taken
    · exact more.taken rank' var old
  · rcases mem_cons.mp member with same | old
    · cases same
      exact hides.legal
    · exact h.legal rank' var old
  · obtain ⟨same, fits⟩ := more.fits var e member
    refine ⟨same, mem_cons_of_mem _ fits.named, fits.distinct, fun other there => ?_, fits.apart⟩
    obtain ⟨old, away, legal⟩ := fits.builders other there
    refine ⟨old, fun rank' member' => ?_, legal⟩
    rcases mem_cons.mp member' with same | member'
    · cases same
      exact h.unused usable member there
    · exact away rank' member'

theorem Lawful.put (fits : Fits reserved k e)
    : Lawful reserved (k.put e) := by
  refine { h with unique := nodup_put h.unique _ _, fits := fun var e' member => ?_ }
  rcases mem_put.mp member with ⟨rfl, rfl⟩ | ⟨different, old⟩
  · refine ⟨rfl, fits.named, fits.distinct, fun name there => ?_,
      fun name there var other member' away => ?_⟩
    · obtain ⟨taken, hidden, legal⟩ := fits.builders name there
      exact ⟨taken, hidden, legal⟩
    · rcases mem_put.mp member' with ⟨same, -⟩ | ⟨-, old⟩
      · exact (away same).elim
      · exact fits.apart name there var other old away
  · obtain ⟨same, named, distinct, builders, apart⟩ := h.fits var e' old
    refine ⟨same, named, distinct, fun name there => ?_,
      fun name there var' other member' away => ?_⟩
    · obtain ⟨taken, hidden, legal⟩ := builders name there
      exact ⟨taken, hidden, legal⟩
    · rcases mem_put.mp member' with ⟨rfl, rfl⟩ | ⟨-, old'⟩
      · exact fun there' => fits.apart name there' var e' old different there
      · exact apart name there var' other old' away

theorem Lawful.drop (var : String) : Lawful reserved (k.drop var) := by
  have fewer : k.elements.erase var ⊆ k.elements := filter_sublist.subset
  refine {
    h with unique := h.unique.sublist (filter_sublist.map _), fits := fun var' e member => ?_ }
  obtain ⟨same, named, distinct, builders, apart⟩ := h.fits var' e (fewer member)
  refine ⟨same, named, distinct, fun name there => ?_,
    fun name there var other member' => apart name there var other (fewer member')⟩
  obtain ⟨taken, hidden, legal⟩ := builders name there
  exact ⟨taken, hidden, legal⟩

end

@[grind ←] theorem Core.mem_put (same : var = e.var) : (var, e) ∈ (k.put e).elements :=
  Table.mem_put.mpr (.inl ⟨same, rfl⟩)

@[grind =] theorem Core.vars_put (k : Core) (e : Element) : (k.put e).vars = k.vars := rfl

@[grind =] theorem Core.vars_drop (k : Core) (var : String) : (k.drop var).vars = k.vars := rfl

/-- A usable name is given out, and nothing else changes. -/
def Gives (k : Core) (name : String) (k' : Core) : Prop :=
  k.namer.usable name = true
    ∧ ∃ namer : Namer, namer.taken = name :: k.namer.taken ∧ k' = { k with namer := namer }

theorem Gives.spare {k' : Core} (h : Gives k name k') (lawful : Lawful reserved k)
    : Lawful reserved k' ∧ k'.vars = k.vars ∧ Spare reserved k' name := by
  obtain ⟨usable, namer, taken, rfl⟩ := h
  exact ⟨lawful.take taken, rfl, lawful.hides_take usable taken, fun var e => lawful.unused usable⟩

attribute [grind →] Gives.spare
attribute [grind ←] Lawful.put Lawful.drop Fits.of_spare
attribute [grind] Element.builderVars

/-! ### Runs that keep names apart -/

/-- From lawful names to lawful names, with the variables of nodes still there. -/
@[grind] def Leads (k k' : Core) : Prop :=
  ∀ reserved, Lawful reserved k → Lawful reserved k' ∧ k.vars ⊆ k'.vars

theorem Leads.put_alike (member : (var, e) ∈ k.elements) (same : Alike e e') : Leads k (k.put e') :=
  fun _ lawful => ⟨lawful.put ((lawful.fits var e member).2.alike same), Subset.refl _⟩

abbrev Moves (core : Core) (post : List String → α → Core → Prop) : PostCond α Shape :=
  Post fun a s => Leads core s.core ∧ ∀ reserved, Lawful reserved core → post reserved a s.core

abbrev Leaves (core : Core) (post : α → Prop) : PostCond α Shape :=
  Post fun a s => Leads core s.core ∧ post a

theorem leaves_since (core : Core) {x : Planning α} {post : α → Prop}
    (h : ∀ core, ⦃At core⦄ x ⦃Leaves core post⦄)
    : ⦃Pre fun s => Leads core s.core⦄ x ⦃Leaves core post⦄ := by
  refine triple_iff_yields.mpr fun c s a t start run => ?_
  have next := triple_iff_yields.mp (h s.core) c s a t rfl run
  grind

@[spec] theorem freshName_gives (hint : String)
    : ⦃At core⦄ freshName hint ⦃Post fun name s => Gives core name s.core⦄ := by
  refine triple_iff_yields.mpr ?_
  rintro c s name t rfl run
  unfold freshName at run
  obtain ⟨_, _, ⟨_, _, first⟩, run⟩ := run.of_bind
  cases first
  split at run
  · rename_i namer found
    obtain ⟨_, u, ⟨_, _, change⟩, done⟩ := run.of_bind
    cases change
    obtain ⟨rfl, rfl⟩ := yields_pure.mp done
    obtain ⟨usable, _, taken⟩ := Namer.fresh?_eq_some found
    exact ⟨usable, namer, taken, rfl⟩
  · obtain ⟨_, _, run⟩ := run
    cases run

@[spec] theorem claimName_gives (name : String)
    : ⦃At core⦄ claimName name ⦃Post fun name s => Gives core name s.core⦄ := by
  mvcgen [claimName]
  rename_i start namer claimed after
  subst start
  obtain ⟨usable, taken⟩ := Namer.claim?_eq_some claimed
  exact ⟨usable, namer, taken, rfl⟩

/-- A node keeps its variable, and gets one if it has none. -/
@[spec] theorem varOf_moves
    : ⦃At core⦄ varOf node hint ⦃Moves core fun _ var k => (node.order, var) ∈ k.vars⦄ := by
  mvcgen [varOf]
  · rename_i s _ start var found
    obtain ⟨before, after, same, -⟩ := lookup_eq_some_iff.mp found
    refine ⟨by grind, fun _ _ => ?_⟩
    simp [State.core, same]
  · rename_i s _ start absent var _ t _ given after
    subst start
    obtain ⟨usable, namer, taken, same⟩ := given
    have new (other : String) : (node.order, other) ∉ s.vars := by
      intro member
      have := lookup_eq_none_iff.mp absent _ member
      simp at this
    have same : after.2.core = { s.core with namer, vars := (node.order, var) :: s.vars } := by
      simpa [State.core, after] using same
    rw [same]
    exact ⟨fun reserved lawful => ⟨lawful.give usable taken new, subset_cons_self _ _⟩,
      fun _ _ => mem_cons_self⟩

@[spec] theorem putElement_put (e : Element)
    : ⦃At core⦄ putElement e ⦃Post fun _ s => s.core = core.put e⦄ := by
  mvcgen [putElement]
  rename_i start _
  subst start
  rfl

@[spec] theorem dropElement_drop (var : String)
    : ⦃At core⦄ dropElement var ⦃Post fun _ s => s.core = core.drop var⦄ := by
  mvcgen [dropElement]
  rename_i start _
  subst start
  rfl

@[spec] theorem newElement_moves {type : String} {strategy : Strategy}
    : ⦃At core⦄ newElement node type strategy hint
      ⦃Moves core fun _ e k => e.builderVars = [] ∧ (e.order, e.var) ∈ k.vars⦄ := by
  mvcgen [newElement]
  grind

/-- A bare element gets at most one builder. -/
abbrev Puts (core : Core) (d : Draft) : PostCond (Option Draft) Shape :=
  Moves core fun reserved found k =>
    d.element.builderVars = []
    → (d.element.order, d.element.var) ∈ core.vars
    → Brings (fun d' => Fits reserved k d'.element) found

@[spec] theorem useBuilder_moves {builder : String}
    : ⦃At core⦄ useBuilder d builder ⦃Puts core d⦄ := by
  mvcgen [useBuilder] invariants
  · Post fun _ s => s.core = core
  all_goals grind

@[spec] theorem useType_moves : ⦃At core⦄ useType d ⦃Puts core d⦄ := by
  mvcgen [useType]
  all_goals grind

@[spec] theorem chooseStrategy_moves : ⦃At core⦄ chooseStrategy d origin tag ⦃Puts core d⦄ := by
  mvcgen [chooseStrategy]
  all_goals grind

@[spec] theorem finish_still (d : Draft)
    : ⦃At core⦄ finish d ⦃Still core fun e => Alike d.element e⦄ := by
  have kept (keys : List String) (e : Element) : Alike e (keys.foldl Element.dependOn e) := by
    induction keys generalizing e with
    | nil => exact ⟨rfl, rfl, rfl⟩
    | cons key keys ih => simpa [Alike] using ih (e.dependOn key)
  mvcgen [finish]
  exact ⟨‹_›, kept _ _⟩

/-! ### Elements -/

/-- The element that is found is in the plan. -/
abbrev Finds (core : Core) : PostCond (Option Element) Shape :=
  Post fun found s => Leads core s.core ∧ Brings (fun e => (e.var, e) ∈ s.core.elements) found

@[spec] theorem planConstant_moves : ⦃At core⦄ planConstant node tag name ⦃Finds core⦄ := by
  mvcgen [planConstant]
  all_goals grind

@[spec] theorem planCopy_moves : ⦃At core⦄ planCopy node source ⦃Finds core⦄ := by
  mvcgen [planCopy]
  all_goals grind

@[spec] theorem planInclusion_moves : ⦃At core⦄ planInclusion node source ⦃Finds core⦄ := by
  mvcgen [planInclusion]
  all_goals grind

/-- The draft stays that of its element. -/
abbrev Keeps (core : Core) (e : Element) : PostCond Draft Shape :=
  Leaves core fun d => d.element = e

theorem contribute_moves (node : Node) (plan : Planning (Option Element))
    (planned : ∀ core, ⦃At core⦄ plan ⦃Finds core⦄) (core : Core)
    : ⦃At core⦄ contribute node plan ⦃Leaves core fun _ => True⦄ := by
  mvcgen [contribute, planned]
  all_goals grind

theorem putProperty_moves (d : Draft) (p : PropertyInfo) (pos : Position) (children : List Node)
    (text : Option Value) (items : Planning Draft)
    (planned : ∀ core, ⦃At core⦄ items ⦃Keeps core d.element⦄)
    : ⦃At core⦄ putProperty d p pos children text items ⦃Keeps core d.element⦄ := by
  mvcgen [putProperty, planned]
  all_goals grind

theorem takeProperty_moves (d : Draft) (pos : Position) (name : String)
    (attributes : List Attribute) (children : List Node) (text : Option Value)
    (inner : Planning Unit) (items : PropertyInfo → Planning Draft)
    (refused : ∀ core, ⦃At core⦄ inner ⦃Leaves core fun _ => True⦄)
    (planned : ∀ p core, ⦃At core⦄ items p ⦃Keeps core d.element⦄) (core : Core)
    : ⦃At core⦄ takeProperty d pos name attributes children text inner items
      ⦃Keeps core d.element⦄ := by
  have put (p : PropertyInfo) := leaves_since core fun _ =>
    putProperty_moves d p pos children text (items p) (planned p)
  mvcgen [takeProperty, refused, put] invariants
  · Leaves core fun _ => True
  all_goals grind

theorem takeAttached_moves (d : Draft) (pos : Position) (owner name : String) (children : List Node)
    (text : Option Value) (first : Planning (Option (Source × Option String)))
    (planned : ∀ core, ⦃At core⦄ first ⦃Leaves core fun _ => True⦄) (core : Core)
    : ⦃At core⦄ takeAttached d pos owner name children text first ⦃Keeps core d.element⦄ := by
  mvcgen [takeAttached, planned]
  all_goals grind

theorem planObject_moves {attributes : List Attribute} {children : List Node} {text : Option Value}
    {content : Draft → ContentTarget → Planning Draft}
    (planned : ∀ d target core, ⦃At core⦄ content d target ⦃Keeps core d.element⦄)
    : ⦃At core⦄ planObject node origin tag attributes children text content ⦃Finds core⦄ := by
  have filled (core : Core) (d : Draft)
      : ⦃At core⦄ attributes.foldlM resolveAttribute d
        ⦃Still core fun d' => d'.element = d.element⦄ := by
    mvcgen invariants
    · Post fun r s => s.core = core ∧ r.2.element = d.element
    all_goals grind
  mvcgen [planObject, planned, filled, -Spec.foldlM_list]
  all_goals grind

mutual

theorem planNode_moves (node : Node) (core : Core) : ⦃At core⦄ planNode node ⦃Finds core⦄ := by
  cases node with
  | object pos order origin tag id attributes children text =>
    rw [planNode]
    exact planObject_moves fun d target core =>
      planChildren_moves target children d rfl core
  | constant =>
    rw [planNode]
    exact planConstant_moves
  | copy =>
    rw [planNode]
    exact planCopy_moves
  | inclusion =>
    rw [planNode]
    exact planInclusion_moves
  | reference | property | staticProperty | define =>
    rw [planNode]
    · mvcgen
      grind
    all_goals nofun
termination_by sizeOf node

theorem planChildren_moves (target : ContentTarget) (children : List Node) (d : Draft) {e : Element}
    (h : d.element = e) (core : Core)
    : ⦃At core⦄ planChildren target children d ⦃Keeps core e⦄ := by
  cases children with
  | nil =>
    rw [planChildren]
    mvcgen
    grind
  | cons child rest =>
    have next (d : Draft) (h : d.element = e) :=
      leaves_since core (planChildren_moves target rest d h)
    by_cases item : isItem child = true
    · have made := contribute_moves child _ (planNode_moves child)
      rw [planChildren_item target item]
      mvcgen [made, next]
      all_goals grind
    · cases child with
      | property pos order name attributes children text =>
        have taken := takeProperty_moves d pos name attributes children text _ _
          (planInner_moves name children) fun p => planItems_moves p children d rfl
        rw [planChildren]
        mvcgen [taken, next]
        all_goals grind
      | staticProperty pos order owner name children text =>
        have taken :=
          takeAttached_moves d pos owner name children text _ (planFirst_moves children)
        rw [planChildren]
        mvcgen [taken, next]
        all_goals grind
      | define pos order children =>
        have defined := planDefined_moves children
        rw [planChildren]
        mvcgen [defined, next]
        all_goals grind
      | object | constant | reference | copy | inclusion => exact (item rfl).elim
termination_by sizeOf children

theorem planInner_moves (name : String) (children : List Node) (core : Core)
    : ⦃At core⦄ planInner name children ⦃Leaves core fun _ => True⦄ := by
  cases children with
  | nil =>
    rw [planInner]
    mvcgen
    grind
  | cons child rest =>
    have next := leaves_since core (planInner_moves name rest)
    by_cases define : ∃ pos order children, child = .define pos order children
    · obtain ⟨pos, order, children, rfl⟩ := define
      have defined := planDefined_moves children
      rw [planInner]
      mvcgen [defined, next]
      all_goals grind
    · rw [planInner_other name fun pos order children same => define ⟨pos, order, children, same⟩]
      mvcgen [next]
      all_goals grind
termination_by sizeOf children

theorem planItems_moves (p : PropertyInfo) (children : List Node) (d : Draft) {e : Element}
    (h : d.element = e) (core : Core)
    : ⦃At core⦄ planItems p children d ⦃Keeps core e⦄ := by
  cases children with
  | nil =>
    rw [planItems]
    mvcgen
    grind
  | cons child rest =>
    have next (d : Draft) (h : d.element = e) := leaves_since core (planItems_moves p rest d h)
    have made := contribute_moves child _ (planNode_moves child)
    rw [planItems]
    mvcgen [made, next]
    all_goals grind
termination_by sizeOf children

theorem planFirst_moves (children : List Node) (core : Core)
    : ⦃At core⦄ planFirst children ⦃Leaves core fun _ => True⦄ := by
  cases children with
  | nil =>
    rw [planFirst]
    mvcgen
    grind
  | cons child rest =>
    rw [planFirst]
    split
    · exact contribute_moves child _ (planNode_moves child) core
    · exact planFirst_moves rest core
termination_by sizeOf children

theorem planDefined_moves (children : List Node) (core : Core)
    : ⦃At core⦄ planDefined children ⦃Leaves core fun _ => True⦄ := by
  cases children with
  | nil =>
    rw [planDefined]
    mvcgen
    grind
  | cons child rest =>
    have next := leaves_since core (planDefined_moves rest)
    by_cases reference : ∃ pos order source, child = .reference pos order source
    · obtain ⟨pos, order, source, rfl⟩ := reference
      rw [planDefined]
      mvcgen [next]
      all_goals grind
    · have made := planNode_moves child
      have put (k : Core) (e : Element) (member : (e.var, e) ∈ k.elements)
          : Leads k (k.put { e with attached := false }) :=
        Leads.put_alike member ⟨rfl, rfl, rfl⟩
      rw [planDefined_other fun pos order source same => reference ⟨pos, order, source, same⟩]
      mvcgen [made, next]
      all_goals grind
termination_by sizeOf children

end

/-! ### The document -/

@[spec] theorem injectField_leaves (controller : TypeDescriptor) (id : String) (entry : Entry)
    : ⦃At core⦄ injectField controller id entry ⦃Leaves core fun _ => True⦄ := by
  have put (s : State) (e : Element) (found : s.elements.get? entry.var = some e)
      : Leads s.core (s.core.put ({ e with field := some id }.dependOn Plan.controllerNode)) := by
    refine Leads.put_alike (mem_of_get? found) ?_
    simp [Alike]
    rfl
  mvcgen [injectField]
  all_goals grind

@[spec] theorem orderElements_still : ⦃At core⦄ orderElements ⦃Still core fun _ => True⦄ := by
  mvcgen [orderElements] invariants
  · Post fun _ s => s.core = core
  all_goals grind

/-- The elements of a plan are those that were put, and its ids lead to the variables of theirs. -/
def Holds (c : Context) (plan : Plan) (k : Core) : Prop :=
  plan.elements = k.elements
    ∧ plan.registry = (c.registry.filter fun (_, entry) => k.elements.contains entry.var).map
        fun (id, entry) => (id, entry.var)

theorem assemble_leads (module className : String) (root : Element)
    : ⦃PreIn fun c' s => c' = c ∧ s.core = core⦄ assemble module className root
      ⦃Post fun plan s => Leads core s.core ∧ Holds c plan s.core⦄ := by
  mvcgen [assemble] invariants
  · Leaves core fun _ => True
  · Leaves core fun _ => True
  · Leaves core fun _ => True
  all_goals grind [Holds, State.core]

theorem leads_of_planDocument {module className : String} {found : Option Plan}
    (run : Yields c (planDocument module className) s found t)
    : Leads s.core t.core ∧ Brings (fun plan => Holds c plan t.core) found := by
  obtain ⟨_, _, ⟨_, _, first⟩, run⟩ := run.of_bind
  cases first
  obtain ⟨root, u, planned, run⟩ := run.of_bind
  obtain ⟨leads, -⟩ := triple_iff_yields.mp (planNode_moves _ s.core) c s root u rfl planned
  cases root with
  | none =>
    obtain ⟨rfl, rfl⟩ := yields_pure.mp run
    exact ⟨leads, nofun⟩
  | some root =>
    obtain ⟨plan, v, assembled, done⟩ := run.of_bind
    obtain ⟨rfl, rfl⟩ := yields_pure.mp done
    have ends : Leads u.core t.core ∧ Holds c plan t.core :=
      triple_iff_yields.mp (assemble_leads module className root) c u plan t ⟨rfl, rfl⟩ assembled
    grind

/-- The variables of an element in the generated method. -/
def localsOf (e : Element) : List String :=
  e.var :: e.builderVars

namespace Lawful

variable {var : String}

section

variable (h : Lawful reserved k)
include h

theorem localsOf_cases (member : (var, e) ∈ k.elements) (there : name ∈ localsOf e)
    : (name = var ∧ ∃ rank, (rank, name) ∈ k.vars)
      ∨ name ∈ e.builderVars ∧ k.Hides reserved name := by
  obtain ⟨rfl, fits⟩ := h.fits var e member
  rcases mem_cons.mp there with rfl | builder
  · exact .inl ⟨rfl, e.order, fits.named⟩
  · exact .inr ⟨builder, fits.builders name builder⟩

theorem nodup_localsOf (member : (var, e) ∈ k.elements)
    : (localsOf e).Nodup := by
  obtain ⟨-, fits⟩ := h.fits var e member
  refine nodup_cons.mpr ⟨fun builder => ?_, fits.distinct⟩
  exact (fits.builders e.var builder).hidden e.order fits.named

theorem disjoint_localsOf {var' : String} (member : (var, e) ∈ k.elements)
    (member' : (var', e') ∈ k.elements) (different : var ≠ var')
    : (localsOf e).Disjoint (localsOf e') := by
  intro name here there
  rcases h.localsOf_cases member here with ⟨rfl, rank, named⟩ | ⟨builder, hidden⟩
  · rcases h.localsOf_cases member' there with ⟨same, -⟩ | ⟨-, hidden⟩
    · exact different same
    · exact hidden.hidden rank named
  · rcases h.localsOf_cases member' there with ⟨-, rank, named⟩ | ⟨builder', -⟩
    · exact hidden.hidden rank named
    · obtain ⟨rfl, fits⟩ := h.fits var e member
      exact fits.apart name builder var' e' member' different.symm builder'

theorem nodup_flatMap_localsOf
    : (k.elements.values.flatMap localsOf).Nodup := by
  refine nodup_flatMap.mpr ⟨fun e member => ?_, ?_⟩
  · obtain ⟨⟨var, _⟩, there, rfl⟩ := mem_map.mp member
    exact h.nodup_localsOf there
  · have keys := h.unique
    rw [Table.keys, Nodup, pairwise_map] at keys
    rw [values, pairwise_map]
    exact keys.imp_of_mem fun here there different => h.disjoint_localsOf here there different

theorem legal_of_mem_localsOf (member : e ∈ k.elements.values) (there : name ∈ localsOf e)
    : Naming.Legal reserved name := by
  obtain ⟨⟨var, _⟩, here, rfl⟩ := mem_map.mp member
  rcases h.localsOf_cases here there with ⟨-, rank, named⟩ | ⟨builder, -⟩
  · exact h.legal rank name named
  · exact ((h.fits var _ here).2.builders name builder).legal

end

end Lawful

/-- Once the ids are registered, names are lawful. -/
theorem Registered.lawful {nodes : List Node} {r : Registration} (registered : Registered nodes r)
    (claimed : Claimed reserved nodes r) (ds : Diagnostics)
    : Lawful reserved (r.state ds).core where
  ranked := registered.named.ranked
  taken := registered.named.taken
  avoids name member := (claimed.taken name).mpr (.inl member)
  legal := claimed.legal
  unique := nodup_nil
  fits _ _ member := nomatch member

end Fxml.Planning

namespace Fxml

open Planning

/-- A plan with or without errors: its elements were put in a lawful state, in which the variables
of ids are still those of their nodes.
-/
theorem Document.lawful_of_plan {document : Document} {settings : PlanSettings}
    {module className : String} {diagnostics reports : Diagnostics} {known known' : IncludeCache}
    {plan : Plan} (ranks : (document.root.walk.map Node.order).Nodup)
    (run : (document.plan settings module className diagnostics).run.run known
      = (.ok (some plan, reports), known'))
    : ∃ c r k,
        c.registry = document.ids settings.reserved
        ∧ r.registry = document.ids settings.reserved
        ∧ Registered document.root.walk r
        ∧ Claimed (settings.reserved ++ importedNames document) document.root.walk r
        ∧ r.vars ⊆ k.vars
        ∧ Lawful (settings.reserved ++ importedNames document) k
        ∧ Holds c plan k := by
  obtain ⟨c, r, ds, s, registration, -, -, -, registry, yields, -⟩ := Document.plan_yields run
  have registered := (registered_start _ _).run ranks registration
  have claimed := (claimed_start _ _).run registration
  rw [nil_append] at registered claimed
  have same := Document.ids_eq registration
  obtain ⟨leads, holds⟩ := leads_of_planDocument yields
  obtain ⟨lawful, grows⟩ := leads _ (registered.lawful claimed ds)
  exact ⟨c, r, s.core, registry.trans same.symm, same.symm, registered, claimed, grows, lawful,
    holds plan rfl⟩

/-- The local variables of a planned document, with or without errors, have different names, and
each is an identifier that is no keyword, no built-in name, no name of the method's own, no first
part of an imported name and not reserved. An id that is declared has one variable, which its
element is kept in. It is the id itself exactly when that is such a name and no id before it has
that variable.
-/
theorem Document.localNames_distinct_legal {src path : String} {document : Document}
    {settings : PlanSettings} {module className : String} {diagnostics reports : Diagnostics}
    {known known' : IncludeCache} {plan : Plan} (parsed : Document.read src path = .ok document)
    (run : (document.plan settings module className diagnostics).run.run known
      = (.ok (some plan, reports), known'))
    : (Code.localNames plan).Nodup
      ∧ (∀ name ∈ Code.localNames plan,
          Naming.Legal (settings.reserved ++ importedNames document) name)
      ∧ ∀ node ∈ document.root.walk, ∀ id,
          node.id? = some id
          → id ≠ Expr.controllerName
          → ∃ before entry after,
              document.ids settings.reserved = before ++ (id, entry) :: after
              ∧ entry.node.id? = some id
              ∧ (∀ e ∈ plan.elements.values, e.order = entry.node.order → e.var = entry.var)
              ∧ (∀ var, plan.registry.get? id = some var → var = entry.var)
              ∧ (entry.var = id
                ↔ Naming.Legal (settings.reserved ++ importedNames document) id
                  ∧ ∀ other ∈ Table.values before, other.var ≠ id) := by
  obtain ⟨c, r, k, registry, same, registered, claimed, grows, lawful, elements, ids⟩ :=
    Document.lawful_of_plan (Document.nodup_ranks parsed) run
  have locals : Code.localNames plan = k.elements.values.flatMap localsOf := by
    rw [Code.localNames, elements]
    rfl
  refine ⟨locals ▸ lawful.nodup_flatMap_localsOf, fun name member => ?_,
    fun node member id declares away => ?_⟩
  · rw [locals] at member
    obtain ⟨e, there, named⟩ := mem_flatMap.mp member
    exact lawful.legal_of_mem_localsOf there named
  · have key := claimed.declared node member id declares away
    obtain ⟨entry, found⟩ := exists_get? key
    obtain ⟨before, after, split⟩ := append_of_mem (mem_of_get? found)
    obtain ⟨-, own, named⟩ := registered.declares id entry found
    refine ⟨before, entry, after, same ▸ split, own, fun e there rank => ?_, fun var leads => ?_,
      claimed.own before id entry after split⟩
    · rw [elements] at there
      obtain ⟨⟨var, _⟩, member, rfl⟩ := mem_map.mp there
      have other := (lawful.fits var _ member).2.named
      have pair := inj_on_of_nodup_map lawful.ranked other (grows named) rank
      exact (Prod.mk.inj pair).2
    · rw [ids, registry, ← same] at leads
      obtain ⟨entry', found', -, rfl⟩ := (get?_map_filter registered.unique).mp leads
      rw [found] at found'
      cases found'
      rfl

/-- The name `ui` is imported, so that the first id gets the name that is the second id. -/
def crossedIds : String :=
  "<?import ui.*?><Box xmlns:fx=\"http://javafx.com/fxml\">"
    ++ "<Box fx:id=\"ui\"/><Box fx:id=\"ui_1\"/></Box>"

/-- The second id needs another variable. -/
theorem Document.localNames_crossedIds
    : ∃ document plan reports known,
        Document.read crossedIds "" = .ok document
        ∧ (document.plan { types := boxTypes } "" "" { file := "" }).run.run []
          = (.ok (some plan, reports), known)
        ∧ Code.localNames plan = ["box_1", "ui_1", "ui_1_1"]
        ∧ (Code.localNames plan).Nodup
        ∧ ∃ before entry after,
            document.ids [] = before ++ ("ui_1", entry) :: after
            ∧ entry.var = "ui_1_1"
            ∧ ∃ other ∈ Table.values before, other.var = "ui_1" := by
  have planned : (cleanPlan? boxTypes crossedIds).map
        (fun plan => (Code.localNames plan, plan.registry.get? "ui_1"))
      = some (["box_1", "ui_1", "ui_1_1"], some "ui_1_1") := by
    decide +kernel
  obtain ⟨plan, found, same⟩ := Option.map_eq_some_iff.mp planned
  obtain ⟨names, id⟩ := Prod.mk.inj same
  obtain ⟨document, reports, known, parsed, run, clean⟩ := exists_of_cleanPlan? found
  have declared : ∃ node ∈ document.root.walk, node.id? = some "ui_1" := by
    have ids : (Document.read crossedIds "").toOption.map
        (fun document => document.root.walk.any (·.id? = some "ui_1")) = some true := by
      decide +kernel
    rw [parsed] at ids
    simpa [Except.toOption] using ids
  obtain ⟨node, member, declares⟩ := declared
  obtain ⟨distinct, legal, own⟩ := Document.localNames_distinct_legal parsed run
  obtain ⟨before, entry, after, split, -, -, leads, iff⟩ :=
    own node member "ui_1" declares (by decide)
  have var := leads _ id
  refine ⟨document, plan, reports, known, parsed, run, names, distinct, before, entry, after, split,
    var.symm, ?_⟩
  by_contra free
  have legal := legal "ui_1" (by rw [names]; decide)
  have same := iff.mpr ⟨legal, fun other there taken => free ⟨other, there, taken⟩⟩
  rw [← var] at same
  exact absurd same (by decide)

end Fxml
