import Fxml.Proofs.Code.Emission

/-! Generated code defines before it uses: for any plan, a variable that the method reads is one of
its own names or was assigned before. Two reads are not guarded: that of an inclusion's builder, and
that of a module whose other name is a variable.
-/

open List Fxml.Naming Fxml.Code.Statement

namespace Fxml.Code

/-! ### Statements -/

namespace Statement

@[simp] def vars (wide : Bool) : Statement → List String
  | assign target value => target.vars wide ++ value.vars wide
  | effect term | result term => term.vars wide

/-- The names that a statement reads. A variable that is assigned as a whole is not read. -/
@[simp] def reads (wide : Bool) : Statement → List String
  | assign (.var _) value => value.vars wide
  | assign target value => target.vars wide ++ value.vars wide
  | effect term | result term => term.vars wide

@[simp] def assigned : Statement → List String
  | assign (.var name) _ => [name]
  | _ => []

/-- A statement other than a call without arguments. -/
@[simp] def Busy (st : Statement) : Prop := ∀ f, st ≠ effect (.call f [])

theorem reads_subset (wide : Bool) (st : Statement) : st.reads wide ⊆ st.vars wide := by
  unfold reads vars
  split
  · exact subset_append_right _ _
  all_goals exact Subset.refl _

theorem mem_vars {wide : Bool} {st : Statement} {v : String} (h : v ∈ st.vars wide)
    : v ∈ st.reads wide ∨ v ∈ st.assigned := by
  unfold vars at h
  unfold reads assigned
  split <;> simp_all [or_comm]

end Statement

/-- Statements that read known names and those that were assigned before. Some reads are excepted. -/
def Ready (wide : Bool) (excepted : Statement → String → Prop) (known : List String)
    : List Statement → Prop
  | [] => True
  | st :: rest =>
    (∀ v ∈ st.reads wide, v ∈ known ∨ excepted st v)
      ∧ Ready wide excepted (st.assigned ++ known) rest

section Ready

variable {wide : Bool} {excepted : Statement → String → Prop} {known known' : List String}
  {statements more : List Statement}

section

variable (h : Ready wide excepted known statements)
include h

theorem Ready.mono (grown : known ⊆ known')
    : Ready wide excepted known' statements := by
  induction statements generalizing known known' with
  | nil => trivial
  | cons st rest ih =>
    refine ⟨fun v read => (h.1 v read).imp_left (grown ·), ih h.2 ?_⟩
    exact append_subset_append (Subset.refl _) grown

theorem Ready.except {excepted' : Statement → String → Prop}
    (weaker : ∀ st v, excepted st v → excepted' st v)
    : Ready wide excepted' known statements := by
  induction statements generalizing known with
  | nil => trivial
  | cons st rest ih => exact ⟨fun v read => (h.1 v read).imp_right (weaker st v), ih h.2⟩

theorem Ready.append (later : Ready wide excepted (statements.flatMap assigned ++ known) more)
    : Ready wide excepted known (statements ++ more) := by
  induction statements generalizing known with
  | nil => exact later
  | cons st rest ih =>
    refine ⟨h.1, ih h.2 (later.mono ?_)⟩
    intro v
    simp only [flatMap_cons, mem_append]
    tauto

end

/-- Statements that all read known variables. -/
theorem ready_of_vars (h : ∀ st ∈ statements, st.vars wide ⊆ known) : Ready wide excepted known statements := by
  induction statements generalizing known with
  | nil => trivial
  | cons st rest ih =>
    obtain ⟨here, later⟩ := forall_mem_cons.mp h
    refine ⟨fun v read => .inl (here (st.reads_subset wide read)), ih fun st' member => ?_⟩
    exact subset_append_of_subset_right _ (later st' member)

theorem Ready.read {before after : List Statement} {st : Statement} {v : String}
    (h : Ready wide excepted known (before ++ st :: after)) (read : v ∈ st.reads wide)
    : v ∈ known ∨ v ∈ before.flatMap assigned ∨ excepted st v := by
  induction before generalizing known with
  | nil => exact (h.1 v read).imp_right .inr
  | cons first before ih =>
    have := ih h.2
    simp only [flatMap_cons, mem_append] at this ⊢
    tauto

end Ready

namespace Scope

variable {s : Scope} {wide : Bool} {term : Term} {statements : List Statement}

/-! ### Variables of statements -/

/-- The terms of sources hold only names from a list, which has the common ones. -/
structure Admits (s : Scope) (wide : Bool) (known : List String) (sources : List Source) : Prop where
  common : s.common wide ⊆ known
  source : ∀ source ∈ sources, ∀ term, s.sourceTerm source = .ok term → term.vars wide ⊆ known

section Statements

variable {known : List String} {e : Element} {sources : List Source}
  {excepted : Statement → String → Prop}

theorem Admits.mono {known' : List String} (h : s.Admits wide known sources) (grown : known ⊆ known')
    : s.Admits wide known' sources :=
  ⟨Subset.trans h.common grown,
    fun source member term made => Subset.trans (h.source source member term made) grown⟩

/-- The parameters of the method. -/
theorem Admits.parameters (h : s.Admits wide known sources)
    : "self" ∈ known ∧ "controller" ∈ known ∧ "root" ∈ known ∧ "resources" ∈ known
      ∧ "controller_factory" ∈ known := by
  refine ⟨?_, ?_, ?_, ?_, ?_⟩ <;> exact h.common (buildNames_subset_common (by decide))

theorem Admits.support (h : s.Admits wide known sources) (name : String)
    : (Term.support name).vars wide ⊆ known :=
  Subset.trans (vars_support_subset name) h.common

theorem argTerms_vars {args : List (String × Source)} (admits : s.Admits wide known (args.map Prod.snd))
    {terms : List (String × Term)} (h : s.argTerms args = .ok terms)
    : Term.varsOfNamed wide terms ⊆ known := by
  induction args generalizing terms with
  | nil =>
    cases h
    simp
  | cons arg rest ih =>
    obtain ⟨here, later⟩ := forall_mem_cons.mp admits.source
    rw [argTerms] at h
    obtain ⟨first, made, h⟩ := exists_of_bind_ok h
    obtain ⟨others, given, h⟩ := exists_of_bind_ok h
    cases h
    rw [Term.varsOfNamed]
    exact append_subset.mpr ⟨here first made, ih ⟨admits.common, later⟩ given⟩

theorem ownSourceTerm_vars (admits : s.Admits wide known e.source.toList)
    (h : s.ownSourceTerm e = .ok term)
    : term.vars wide ⊆ known := by
  unfold ownSourceTerm at h
  split at h
  · rename_i source given
    exact admits.source source (by simp [given]) term h
  · cases h

theorem constructTerm_vars (admits : s.Admits wide known e.makers) (h : s.constructTerm e = .ok term)
    : term.vars wide ⊆ known := by
  have own : s.Admits wide known e.source.toList :=
    ⟨admits.common, fun source member => admits.source source (by simp_all [Element.makers])⟩
  have typed {type : Term} (within : ∀ wide, type.vars wide ⊆ s.common wide) : type.vars wide ⊆ known :=
    Subset.trans (within wide) admits.common
  unfold constructTerm at h
  split at h
  · obtain ⟨args, given, h⟩ := exists_of_bind_ok h
    obtain ⟨type, named, h⟩ := exists_of_bind_ok h
    cases h
    rw [Term.vars]
    refine append_subset.mpr ⟨typed (typeTerm_spec.holds _ named),
      argTerms_vars ⟨admits.common, fun source member => admits.source source ?_⟩ given⟩
    simp_all [Element.makers]
  · obtain ⟨type, named, h⟩ := exists_of_bind_ok h
    obtain ⟨inner, made, h⟩ := exists_of_bind_ok h
    cases h
    simpa [typed (typeTerm_spec.holds _ named)] using ownSourceTerm_vars own made
  · obtain ⟨owner, named, h⟩ := exists_of_bind_ok h
    cases h
    simpa using typed (ownerTerm_spec.holds _ named)
  · obtain ⟨owner, named, h⟩ := exists_of_bind_ok h
    cases h
    simpa using typed (ownerTerm_spec.holds _ named)
  · exact ownSourceTerm_vars own h
  · obtain ⟨inner, made, h⟩ := exists_of_bind_ok h
    cases h
    simpa [admits.support] using ownSourceTerm_vars own made
  · obtain ⟨type, named, h⟩ := exists_of_bind_ok h
    cases h
    simp [typed (typeTerm_spec.holds _ named), admits.parameters, admits.support]
  · cases h

/-- The controller of an included document is handed on from the builder of the inclusion, also where
the object is made in another way and the builder is not.
-/
def Stray (e : Element) (st : Statement) (v : String) : Prop :=
  e.strategy ≠ .inclusion
    ∧ ∃ i field, e.inclusion = some i ∧ i.controllerField = some field ∧ v = i.builderVar
      ∧ st = .assign (.attr (.var "controller") field) (.attr (.var v) "controller")

/-- What statements that make an element's object do with variables. -/
structure Makes (wide : Bool) (e : Element) (known : List String) (statements : List Statement)
    : Prop where
  ready : Ready wide (Stray e) known statements
  busy : ∀ st ∈ statements, st.Busy
  own : e.var ∈ statements.flatMap assigned
  included
    : ∀ i, e.strategy = .inclusion → e.inclusion = some i
        → i.builderVar ∈ statements.flatMap assigned
  locals
    : ∀ v ∈ statements.flatMap assigned,
        v = e.var ∨ e.strategy = .builder ∧ v = e.builderVar.getD "None"
        ∨ ∃ i, e.inclusion = some i ∧ v = i.builderVar

theorem builderStatements_makes (admits : s.Admits wide known e.makers) (builder : e.strategy = .builder)
    (h : s.builderStatements e = .ok statements)
    : Makes wide e known statements := by
  unfold builderStatements at h
  obtain ⟨type, typed, h⟩ := exists_of_bind_ok h
  obtain ⟨steps, made, h⟩ := exists_of_bind_ok h
  cases h
  have step {st : Statement} (listed : st ∈ steps)
      : st.vars wide ⊆ e.builderVar.getD "None" :: known ∧ st.Busy ∧ st.assigned = [] := by
    obtain ⟨step, given, h⟩ := mem_of_mapM_ok made st listed
    obtain ⟨term, read, h⟩ := exists_of_bind_ok h
    cases h
    have member : step.source ∈ e.makers := by
      simp only [Element.makers, mem_append, mem_map]
      exact .inr ⟨step, given, rfl⟩
    have within := admits.source _ member term read
    simp [subset_cons_of_subset _ within]
  have idle : steps.flatMap assigned = [] :=
    flatMap_eq_nil_iff.mpr fun st listed => (step listed).2.2
  refine {
    ready := ⟨?_, (ready_of_vars fun st listed => (step listed).1).append ?_⟩
    busy := ?_
    own := by simp
    included := by simp [builder]
    locals := by simp [idle, builder]
  }
  · intro v read
    refine .inl (admits.common (ownerTerm_spec.holds _ typed wide ?_))
    simpa using read
  · exact ⟨by simp, trivial⟩
  · intro st member
    simp only [cons_append, mem_cons, mem_append, not_mem_nil, or_false] at member
    rcases member with rfl | listed | rfl
    · simp
    · exact (step listed).2.1
    · simp

theorem inclusionStatements_makes (admits : s.Admits wide known sources)
    (h : s.inclusionStatements e = .ok statements)
    : Makes wide e known statements := by
  unfold inclusionStatements at h
  split at h
  · cases h
  split at h
  · cases h
  rename_i i given _ _ found
  cases h
  have imported : Term.vars wide (.global (_ ++ "." ++ i.className)) ⊆ known :=
    Subset.trans (vars_imported_subset i.className found) admits.common
  refine ⟨?_, ?_, ?_, ?_, ?_⟩
  · refine ⟨fun v read => .inl (imported ?_), ?_⟩
    · simpa using read
    · simp [Ready, admits.parameters]
  all_goals simp [given]

theorem creationStatements_makes (admits : s.Admits wide known e.makers)
    (h : s.creationStatements e = .ok statements)
    : Makes wide e known statements := by
  unfold creationStatements at h
  split at h
  · rename_i strategy
    exact builderStatements_makes admits strategy h
  · exact inclusionStatements_makes admits h
  · obtain ⟨term, made, h⟩ := exists_of_bind_ok h
    cases h
    have within := constructTerm_vars admits made
    refine ⟨⟨fun v read => .inl (within read), trivial⟩, ?_, ?_, ?_, ?_⟩
    all_goals simp_all

theorem registrationStatements_ready (admits : s.Admits wide known sources) (own : e.var ∈ known)
    (included : ∀ i, e.strategy = .inclusion → e.inclusion = some i → i.builderVar ∈ known)
    : Ready wide (Stray e) known (registrationStatements e)
      ∧ ∀ st ∈ registrationStatements e, st.Busy ∧ st.assigned = [] := by
  have handed {i : Inclusion} {field : String} (given : e.inclusion = some i)
      (named : i.controllerField = some field)
      : i.builderVar ∈ known
        ∨ Stray e (.assign (.attr (.var "controller") field) (.attr (.var i.builderVar) "controller"))
          i.builderVar := by
    by_cases strategy : e.strategy = .inclusion
    · exact .inl (included i strategy given)
    · exact .inr ⟨strategy, i, field, given, named, rfl, rfl⟩
  unfold registrationStatements
  constructor
  · refine .append (.append (.append ?_ ?_) ?_) ?_
    · split <;> simp [Ready, own]
    · cases e.id <;> simp [Ready, own, admits.parameters]
    · cases e.field <;> simp [Ready, own, admits.parameters]
    · cases given : e.inclusion with
      | none => simp [Ready]
      | some i =>
        cases named : i.controllerField with
        | none => simp [Ready, named]
        | some field =>
          have passed := handed given named
          simp only [Option.bind_some, named, Option.map_some, Option.toList_some, Ready]
          simp [admits.parameters]
          tauto
  · intro st member
    simp only [mem_append] at member
    rcases member with ((own | id) | field) | sub
    · split at own <;> simp_all
    · cases given : e.id <;> simp_all
    · cases given : e.field <;> simp_all
    · cases given : e.inclusion with
      | none => simp_all
      | some i => cases named : i.controllerField <;> simp_all

theorem handlerTerm_known {adapter : String} {source : Source} (admits : s.Admits wide known [source])
    (h : s.handlerTerm adapter source = .ok term)
    : term.vars wide ⊆ known := by
  cases source with
  | method =>
    cases h
    exact Subset.trans (methodTerm_vars _ _ _)
      (Subset.trans buildNames_subset_common admits.common)
  | handler pos source => exact admits.source _ mem_cons_self term h
  | _ => cases h

theorem stepStatement_vars {var : String} {step : Step} {st : Statement}
    (admits : s.Admits wide known [step.source]) (own : var ∈ known)
    (h : s.stepStatement var step = .ok st)
    : st.vars wide ⊆ known ∧ st.Busy ∧ st.assigned ⊆ [var] := by
  -- Whether the target is the element or a property of it, its one variable is the element.
  obtain ⟨target, same, held, whole⟩
      : ∃ target, (if step.target = "" then .var var else .attr (.var var) step.target) = target
          ∧ target.vars wide = [var] ∧ ∀ value, (assign target value).assigned ⊆ [var] := by
    split <;> exact ⟨_, rfl, by simp, by simp⟩
  have read {term : Term} (made : s.sourceTerm step.source = .ok term) : term.vars wide ⊆ known :=
    admits.source _ mem_cons_self term made
  unfold stepStatement at h
  dsimp only at h
  rw [same] at h
  split at h
  · obtain ⟨term, made, h⟩ := exists_of_bind_ok h
    cases h
    simp [held, own, read made, whole, -assigned]
  · obtain ⟨term, made, h⟩ := exists_of_bind_ok h
    cases h
    simp [held, own, read made]
  · obtain ⟨term, made, h⟩ := exists_of_bind_ok h
    cases h
    simp [held, own, read made]
  · split at h
    · cases h
    · obtain ⟨term, made, h⟩ := exists_of_bind_ok h
      cases h
      simp [held, own, read made]
  · obtain ⟨owner, named, h⟩ := exists_of_bind_ok h
    obtain ⟨term, made, h⟩ := exists_of_bind_ok h
    cases h
    simp [Subset.trans (ownerTerm_spec.holds _ named wide) admits.common, own, read made]
  · obtain ⟨term, made, h⟩ := exists_of_bind_ok h
    cases h
    simp [held, own, handlerTerm_known admits made, whole, -assigned]
  · obtain ⟨term, made, h⟩ := exists_of_bind_ok h
    cases h
    simp [own, handlerTerm_known admits made, admits.support]
  · obtain ⟨term, made, h⟩ := exists_of_bind_ok h
    cases h
    simp [held, own, handlerTerm_known admits made]
  · cases h

/-- The statements of an element are ready when its sources are: those for its object before it is made,
those of its steps after.
-/
theorem elementStatements_makes (admits : s.Admits wide known e.makers)
    (after : ∀ known', known ⊆ known' → e.var ∈ known'
      → (s.build e.var).Admits wide known' (e.steps.map (·.source)))
    (h : s.elementStatements e = .ok statements)
    : Makes wide e known statements := by
  unfold elementStatements at h
  obtain ⟨creation, made, h⟩ := exists_of_bind_ok h
  obtain ⟨steps, stepped, h⟩ := exists_of_bind_ok h
  cases h
  have first := creationStatements_makes admits made
  have grown := subset_append_right (creation.flatMap assigned) known
  have own := mem_append_left known first.own
  obtain ⟨ready, quiet⟩ := registrationStatements_ready (admits.mono grown) own
    fun i strategy given => mem_append_left _ (first.included i strategy given)
  -- Registration assigns nothing, so the steps find the variables that creation left.
  have idle : (registrationStatements e).flatMap assigned = [] :=
    flatMap_eq_nil_iff.mpr fun st listed => (quiet st listed).2
  have admits' := after _ grown own
  have step {st : Statement} (listed : st ∈ steps)
      : st.vars wide ⊆ creation.flatMap assigned ++ known ∧ st.Busy ∧ st.assigned ⊆ [e.var] := by
    obtain ⟨step, given, h⟩ := mem_of_mapM_ok stepped st listed
    refine stepStatement_vars ⟨admits'.common, fun source member => admits'.source source ?_⟩ own h
    exact mem_map.mpr ⟨step, given, (mem_singleton.mp member).symm⟩
  have total : (creation ++ registrationStatements e ++ steps).flatMap assigned
      = creation.flatMap assigned ++ steps.flatMap assigned := by
    simp [idle]
  refine {
    ready := (first.ready.append ready).append (ready_of_vars fun st listed => ?_)
    busy := fun st member => ?_
    own := total ▸ mem_append_left _ first.own
    included := fun i strategy given => total ▸ mem_append_left _ (first.included i strategy given)
    locals := fun v member => ?_
  }
  · refine Subset.trans (step listed).1 ?_
    simp [idle]
  · simp only [mem_append] at member
    rcases member with (member | member) | member
    · exact first.busy st member
    · exact (quiet st member).1
    · exact (step member).2.1
  · rw [total] at member
    rcases mem_append.mp member with old | new
    · exact first.locals v old
    · obtain ⟨st, listed, held⟩ := mem_flatMap.mp new
      exact .inl (mem_singleton.mp ((step listed).2.2 held))

end Statements

variable {known : List String}

/-! ### The method -/

/-- What is built already is known, and so are the common names. -/
structure Covers (s : Scope) (wide : Bool) (known : List String) : Prop where
  common : s.common wide ⊆ known
  built : s.built ⊆ known

theorem Covers.admits (h : s.Covers wide known) (sources : List Source) : s.Admits wide known sources := by
  refine ⟨h.common, fun source _ term made v held => ?_⟩
  rcases mem_append.mp ((sourceTerm_spec source).holds term made wide held) with common | needed
  · exact h.common common
  · rcases ((sourceTerm_emits source).mp ⟨term, made⟩).1.needed needed with has | rfl | given
    · exact h.built has.2
    · exact h.common (buildNames_subset_common (by decide))
    · obtain ⟨id, ⟨var, found, has⟩, same⟩ := given
      rw [found] at same
      cases same
      exact h.built has.2

theorem Covers.targets (h : s.Covers wide known) {references : List Reference}
    (resolves : s.Resolves references)
    : s.targets references ⊆ known := by
  intro v held
  obtain ⟨r, member, found⟩ := mem_filterMap.mp held
  split at found
  · cases found
    exact h.common (buildNames_subset_common (by decide))
  · rename_i other
    obtain ⟨var, given, has⟩ := (resolves r member).resolve_left other
    rw [given] at found
    cases found
    exact h.built has.2

/-- Statements that make the elements of some variables one after the other. -/
def MakesAll (p : Plan) (vars : List String) (statements : List Statement) : Prop :=
  ∃ pieces : List (List Statement), statements = pieces.flatten
    ∧ Forall₂ (fun var piece => ∃ e, p.elements.get? var = some e
        ∧ ∃ scope : Scope, scope.plan = p ∧ scope.elementStatements e = .ok piece) vars pieces

/-- A read that an element of the plan does not guard. -/
def StrayIn (p : Plan) (st : Statement) (v : String) : Prop :=
  ∃ var e, p.elements.get? var = some e ∧ Stray e st v

theorem orderStatements_ready {vars : List String} {last : Scope} (covers : s.Covers wide known)
    (h : s.orderStatements vars = .ok (statements, last))
    : MakesAll s.plan vars statements
      ∧ Ready wide (StrayIn s.plan) known statements
      ∧ (∀ st ∈ statements, st.Busy)
      ∧ last.plan = s.plan
      ∧ last.Covers wide (statements.flatMap assigned ++ known) := by
  induction vars generalizing s known statements with
  | nil =>
    cases h
    exact ⟨⟨[], rfl, .nil⟩, trivial, nofun, rfl, covers⟩
  | cons var rest ih =>
    rw [orderStatements] at h
    split at h
    · cases h
    rename_i e found
    obtain ⟨first, made, h⟩ := exists_of_bind_ok h
    obtain ⟨⟨more, last'⟩, later, h⟩ := exists_of_bind_ok h
    cases h
    have makes := elementStatements_makes (covers.admits _)
      (fun known' grown own => Covers.admits (s := s.build e.var) ⟨Subset.trans covers.common grown,
        cons_subset.mpr ⟨own, Subset.trans covers.built grown⟩⟩ _) made
    have grown := subset_append_right (first.flatMap assigned) known
    have next : Covers (s.build e.var) wide (first.flatMap assigned ++ known) :=
      ⟨Subset.trans covers.common grown, cons_subset.mpr
        ⟨mem_append_left _ makes.own, Subset.trans covers.built grown⟩⟩
    obtain ⟨⟨pieces, rfl, each⟩, ready, busy, same, covers'⟩ := ih next later
    refine ⟨⟨first :: pieces, rfl, .cons ⟨e, found, s, rfl, made⟩ each⟩,
      (makes.ready.except fun st v stray => ⟨var, e, found, stray⟩).append ready, ?_, same, ?_⟩
    · exact forall_mem_append.mpr ⟨makes.busy, busy⟩
    · refine ⟨Subset.trans covers'.common ?_, Subset.trans covers'.built ?_⟩
      all_goals
        intro v
        simp only [flatMap_append, mem_append]
        tauto

/-! ### Bindings -/

/-- The statement that binds a property to a source. -/
def bindStatement (b : Binding) (source : Term) : Statement :=
  .effect (.call (.support "bind")
    [.call (.support "property_of") [.var b.var, .string b.property], source])

theorem bindingStatement_vars (covers : s.Covers wide known) {b : Binding} {st : Statement}
    (h : s.bindingStatement b = .ok st)
    : st.vars wide ⊆ known ∧ ∃ source, st = bindStatement b source := by
  obtain ⟨built, e, value, resolves⟩ := bindingStatement_emits.mp ⟨st, h⟩
  unfold bindingStatement at h
  rw [if_pos (contains_iff_mem.mpr built)] at h
  obtain ⟨source, made, h⟩ := exists_of_bind_ok h
  cases h
  refine ⟨?_, source, rfl⟩
  rw [value] at made
  obtain ⟨term, observed, made⟩ := exists_of_bind_ok made
  have within : term.vars wide ⊆ known := Subset.trans ((observedTerm_spec e).holds term observed wide)
    (append_subset.mpr ⟨covers.common, covers.targets resolves⟩)
  have support := (covers.admits []).support
  have held : source.vars wide ⊆ known := by
    split at made <;> cases made <;> simp [within, support]
  simp [held, support, covers.built built]

/-- The method takes its parameters over. -/
def opening : List Statement :=
  [.assign (.attr (.var "self") "resources") (.var "resources"),
    .assign (.var "controller") (.call (.attr (.var "self") "select_controller")
      [.var "controller", .var "controller_factory"])]

/-- The controller's own wiring. -/
def hookCall : Statement := .effect (.call (.attr (.var "controller") "initialize") [])

/-- The method gives the root, and runs the controller's own wiring if there is one. -/
def closing (p : Plan) : List Statement :=
  [.assign (.attr (.var "self") "root") (.var p.rootVar)]
    ++ (if p.controller.any (·.hasInitialize) then [hookCall] else []) ++ [.result (.var p.rootVar)]

theorem body_cases (h : s.body = .ok statements)
    : ∃ elements last bindings,
        s.orderStatements s.plan.order = .ok (elements, last)
        ∧ last.plan.bindings.mapM last.bindingStatement = .ok bindings
        ∧ last.plan.rootVar ∈ last.built
        ∧ statements = opening ++ elements ++ (bindings ++ closing last.plan) := by
  unfold body at h
  obtain ⟨⟨elements, last⟩, ordered, h⟩ := exists_of_bind_ok h
  obtain ⟨bindings, bound, h⟩ := exists_of_bind_ok h
  split at h
  · rename_i built
    cases h
    exact ⟨elements, last, bindings, ordered, bound, contains_iff_mem.mp built, by
      simp [opening, closing, hookCall]⟩
  · cases h

section Body

variable (fresh : s.built = []) (h : s.body = .ok statements)
include fresh h

/-- The method makes the elements, binds properties and closes, and only then is the hook called. -/
theorem body_shape
    : ∃ elements bindings,
        statements = opening ++ elements ++ (bindings ++ closing s.plan)
        ∧ MakesAll s.plan s.plan.order elements
        ∧ Forall₂ (fun b st => ∃ source, st = bindStatement b source) s.plan.bindings bindings
        ∧ ∀ st ∈ opening ++ elements ++ bindings, st ≠ hookCall := by
  obtain ⟨elements, last, bindings, ordered, bound, -, rfl⟩ := body_cases h
  have start : Covers s false (s.common false) := ⟨Subset.refl _, fresh ▸ nil_subset _⟩
  obtain ⟨pieces, -, busy, same, covers⟩ := orderStatements_ready start ordered
  rw [same] at bound ⊢
  refine ⟨elements, bindings, rfl, pieces, (forall₂_of_mapM_ok bound).imp fun b st made =>
    (bindingStatement_vars covers made).2, ?_⟩
  simp only [forall_mem_append]
  refine ⟨⟨by simp [opening, hookCall], fun st member => busy st member _⟩, fun st member => ?_⟩
  obtain ⟨b, _, made⟩ := mem_of_mapM_ok bound st member
  obtain ⟨source, rfl⟩ := (bindingStatement_vars covers made).2
  simp [bindStatement, hookCall]

/-- Each statement of the method finds the names that it reads. -/
theorem body_ready (wide : Bool) : Ready wide (StrayIn s.plan) (s.common wide) statements := by
  obtain ⟨elements, last, bindings, ordered, bound, root, rfl⟩ := body_cases h
  have start : Covers s wide (s.common wide) := ⟨Subset.refl _, fresh ▸ nil_subset _⟩
  obtain ⟨-, ready, -, same, covers⟩ := orderStatements_ready start ordered
  rw [same] at bound root ⊢
  have rest : ∀ st ∈ bindings ++ closing s.plan,
      st.vars wide ⊆ elements.flatMap assigned ++ s.common wide := by
    refine forall_mem_append.mpr ⟨fun st member => ?_, ?_⟩
    · obtain ⟨b, _, made⟩ := mem_of_mapM_ok bound st member
      exact (bindingStatement_vars covers made).1
    · have parameters := (covers.admits []).parameters
      have rooted := covers.built root
      unfold closing hookCall
      split <;> simp [parameters, rooted]
  refine (Ready.append ?_ (ready.mono (subset_append_right _ _))).append
    ((ready_of_vars rest).mono fun v => ?_)
  · simp [Ready, opening, (start.admits []).parameters]
  · simp only [flatMap_append, mem_append]
    tauto

end Body

end Scope

open Scope

/-- A name that is there without an assignment: one of the method, a type of the language, or one
bound by an import. If that is a variable too, the import gives its module another name.
-/
def Given (p : Plan) (m : Module) (v : String) : Prop :=
  v ∈ Naming.buildNames
    ∨ v ∈ typeNames
    ∨ ∃ line ∈ m.imports, line.bound = v ∧ (v ∈ localNames p → line.shortName = some v)

theorem given_of_common {p : Plan} {m : Module} {v : String} (same : m.imports = importLines p)
    (h : v ∈ Scope.common { plan := p, imports := importLines p } true)
    : Given p m v := by
  refine (mem_append.mp h).imp_right fun h => (mem_append.mp h).imp_right fun h => ?_
  obtain ⟨line, listed, rfl⟩ := mem_map.mp h
  obtain ⟨bound, renamed⟩ := bound_importLines listed
  rw [bound]
  exact ⟨line, same ▸ listed, rfl, renamed⟩

/-- Generated code defines before it uses, whatever the plan. The method makes the elements of the
construction order, then binds properties, and then closes; the controller's own wiring occurs nowhere
else. Each variable that a statement reads is a name of the method or assigned by a statement before,
but for the builder of an inclusion whose object is made in another way. The first part of a dotted name
is there from the start; it is a variable only if it is the other name of a module, and such a variable
may be read before it is assigned.
-/
theorem generate_defines_before_use {p : Plan} {m : Module} (h : generate p = .ok m)
    : (∃ elements bindings,
        m.body = opening ++ elements ++ (bindings ++ closing p)
        ∧ MakesAll p p.order elements
        ∧ List.Forall₂ (fun b st => ∃ source, st = bindStatement b source) p.bindings bindings
        ∧ ∀ st ∈ opening ++ elements ++ bindings, st ≠ hookCall)
      ∧ ∀ before st after, m.body = before ++ st :: after
        → (∀ v ∈ st.reads false,
            v ∈ Naming.buildNames ∨ v ∈ before.flatMap Statement.assigned ∨ StrayIn p st v)
          ∧ ∀ v ∈ st.reads true,
            Given p m v ∨ v ∈ before.flatMap Statement.assigned ∨ StrayIn p st v := by
  unfold generate at h
  obtain ⟨_, _, h⟩ := exists_of_bind_ok h
  obtain ⟨body, made, h⟩ := exists_of_bind_ok h
  cases h
  refine ⟨body_shape rfl made, fun before st after split => ?_⟩
  dsimp only at split
  rw [split] at made
  refine ⟨fun v read => ?_, fun v read => ?_⟩
  · refine ((body_ready rfl made false).read read).imp_left fun there => ?_
    simpa [common] using there
  · exact ((body_ready rfl made true).read read).imp_left (given_of_common rfl)

/-- The first element keeps a builder that it has no use for, and the second has the builder's name. -/
def strayPlan : Plan where
  path := ""
  module := ""
  className := ""
  rootVar := "b"
  rootType := ""
  elements :=
    [("a", { var := "a", type := "", strategy := .value, pos := .start, order := 0
             source := some (.literal .start .null)
             inclusion := some ⟨"", "", "", "", "b", some "part"⟩ }),
     ("b", { var := "b", type := "", strategy := .value, pos := .start, order := 1
             source := some (.literal .start .null) })]
  order := ["a", "b"]

/-- The second element is read before it is made. -/
theorem generate_strayPlan
    : ∃ m, generate strayPlan = .ok m
      ∧ (m.body.drop 2).map Statement.text
        = ["a = None", "controller.part = b.controller", "b = None", "self.root = b", "return b"]
      ∧ ∀ before st after, m.body = before ++ st :: after
        → (∀ v ∈ st.reads false,
            v ∈ Naming.buildNames ∨ v ∈ before.flatMap Statement.assigned ∨ StrayIn strayPlan st v)
          ∧ ∀ v ∈ st.reads true,
            Given strayPlan m v ∨ v ∈ before.flatMap Statement.assigned ∨ StrayIn strayPlan st v := by
  have texts : (generate strayPlan).toOption.map (fun m => (m.body.drop 2).map text)
      = some ["a = None", "controller.part = b.controller", "b = None", "self.root = b", "return b"] := by
    decide +kernel
  obtain ⟨m, found, same⟩ := Option.map_eq_some_iff.mp texts
  have generated := ok_of_toOption found
  exact ⟨m, generated, same, (generate_defines_before_use generated).2⟩

end Fxml.Code
