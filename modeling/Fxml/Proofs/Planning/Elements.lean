import Fxml.Proofs.Planning.Construction
import Fxml.Proofs.Planning.Content

/-! Planning keeps its invariant. Every placed and grounded node gets an element, and that of an
object is made of the effects of all pieces of its node. The proof follows the recursion over the
document.
-/

open List

namespace Fxml.Planning

variable {found : Option Element} {name source type : String} {e : Element} {d : Draft}
  {attributes : List Attribute} {text : Option Value} {descriptor : TypeDescriptor}
  {content : Draft → ContentTarget → Planning Draft} {node child : Node} {pos : Position}
  {order : Nat} {tag : String} {id : Option String} {children nodes : List Node} {origin : Origin}
  {c : Context} {s t : State} {underway : List String} {target : IncludeTarget}

/-! ### Finished elements -/

theorem Settled.covered (h : Settled node found s) : Covered c [node] s := by
  obtain ⟨e, _, there, named⟩ := h
  intro other member _
  rw [mem_singleton.mp member]
  exact ⟨e.var, named, Table.mem_keys_of_mem there⟩

theorem Settled.planned (h : Settled node found s) (covered : Covered c (node.placed .definition) s)
    : Planned c node found s := by
  obtain ⟨e, rfl, there, named⟩ := h
  refine ⟨fun other same => ?_, fun absent => (nomatch absent), covered⟩
  cases same
  exact ⟨there, named⟩

theorem planned_of_not_grounded (h : ¬c.Grounded node) (leaf : node.placed .definition = [node])
    : Planned c node none s := by
  refine ⟨fun _ same => (nomatch same), fun _ _ => h, fun other member grounded => ?_⟩
  rw [leaf, mem_singleton] at member
  exact (h (member ▸ grounded)).elim

/-! ### Constants, copies and included documents -/

/-- An element without values is finished, if it has the parts that its strategy needs. -/
theorem finished_of_no_sources (none_there : e.sources = []) (shaped : e.Shaped)
    (builders : ∀ name ∈ e.builderVars, Private s name)
    (depends : ∀ var ∈ e.dependencies, var = Plan.controllerNode)
    (placed : c.Placed node) (order : e.order = node.order)
    (plain : e.sources = [] → Told c s e node)
    : Finished c s e where
  shaped := shaped
  builders := builders
  reads := by simp [none_there]
  depends := by simp [none_there]
  justified var needed := .inl (depends var needed)
  told := ⟨node, placed.mem_walk, order, plain none_there⟩

theorem planConstant_plans (sound : c.Sound) (placed : c.Placed (.constant pos order tag name id))
    : Plans c underway (planConstant (.constant pos order tag name id) tag name) s
        (Planned c (.constant pos order tag name id)) := by
  unfold planConstant
  refine (typeOf_plans sound placed.mem_walk trivial).bind fun found t typed => ?_
  cases found with
  | none => exact plans_pure.mpr fun clean _ => ((typed clean).holds (.constant ..)).elim
  | some type =>
    refine Plans.begin placed (fun clean => (typed clean).holds.1) fun e u begun => ?_
    refine closes_put _ (fun clean => ?_) fun found v _ _ settled => settled.planned settled.covered
    obtain ⟨start, bare, strategy, _, depends, stands, _⟩ := begun clean
    obtain ⟨_, owner, resolved⟩ := (typed start).holds
    obtain ⟨args, builder, builderVar, builderSteps, _, source, inclusion, steps⟩ := bare
    refine ⟨stands, ⟨rfl, rfl, rfl, rfl⟩, finished_of_no_sources ?_ ?_ ?_ ?_ placed
      stands.2.2.2.2.1 fun none_there => none_there⟩
    · simp [Element.sources, args, builderSteps, source, steps]
    · constructor <;>
        simp [strategy, resolved, Except.toOption, args, builder, builderSteps, source, steps]
    · simp [Element.builderVars, builderVar, inclusion]
    · simp [depends]

theorem planCopy_plans (sound : c.Sound) (placed : c.Placed (.copy pos order source id))
    : Plans c underway (planCopy (.copy pos order source id) source) s
        (Planned c (.copy pos order source id)) := by
  unfold planCopy
  rw [plans_entry?_bind]
  split
  · exact plans_refuse rfl
  rename_i entry declared
  refine (typeOf_plans sound placed.mem_walk trivial).bind fun found t typed => ?_
  cases found with
  | none => exact plans_pure.mpr fun clean _ => planned_of_not_grounded (typed clean).holds rfl
  | some type =>
    rw [plans_describe_bind]
    split
    · exact plans_refuse rfl
    refine Plans.begin placed (fun clean => (typed clean).holds.1) fun e u begun => ?_
    obtain ⟨all, same, grown⟩ := Element.dependOn_eq
      { e with source := some (.element (Node.copy pos order source id).pos entry.var) } entry.var
    rw [same]
    refine closes_put _ (fun clean => ?_) fun found v _ _ settled => settled.planned settled.covered
    obtain ⟨start, bare, strategy, _, depends, stands, _⟩ := begun clean
    obtain ⟨args, builder, builderVar, builderSteps, owner, _, inclusion, steps⟩ := bare
    have only : Element.sources { e with
        source := some (.element (Node.copy pos order source id).pos entry.var)
        dependencies := all } = [.element pos entry.var] := by
      simp [Element.sources, args, builderSteps, steps, Node.pos]
    refine ⟨stands, ⟨rfl, rfl, rfl, rfl⟩, {
      shaped := ?_
      builders := by simp [Element.builderVars, builderVar, inclusion]
      reads := ?_
      depends := ?_
      justified := fun var needed => .inr ?_
      told := ⟨_, placed.mem_walk, stands.2.2.2.2.1, entry, declared, only⟩
    }⟩
    · constructor <;> simp [strategy, args, builder, builderSteps, owner, steps]
    · rw [only, forall_mem_singleton]
      exact .inr ⟨source, by simp [Context.varOf, declared]⟩
    · rw [only, forall_mem_singleton]
      exact cons_subset.mpr ⟨(grown _).mpr (.inr rfl), nil_subset _⟩
    · rw [only]
      rcases (grown var).mp needed with before | rfl
      · rw [depends] at before
        cases before
      · exact ⟨_, mem_singleton_self _, mem_singleton_self _⟩

theorem checkMerged_plans : Plans c underway (checkMerged node target) s fun _ _ => True := by
  unfold checkMerged
  refine (Plans.loop fun id _ t => ?_).bind fun _ _ _ => plans_pure_trivial
  rw [plans_get_bind, plans_read_bind]
  dsimp only
  split
  · exact plans_report.bind fun _ _ _ => plans_pure_trivial
  · have put : Plans c underway (modify fun s => { s with exported := s.exported.put id node }) t
        fun _ _ => True :=
      .modify rfl (fun _ inv => inv.congr _ _ _) (.of_same rfl rfl rfl rfl) fun _ _ => trivial
    exact put.bind fun _ _ _ => plans_pure_trivial

/-- An included document is noted in the element, whether its controller is linked or not. -/
theorem linkSubController_plans {inclusion : Inclusion}
    : Plans c underway (linkSubController e inclusion target) s fun e' _ =>
        ∃ noted all,
          e' = { e with inclusion := some noted, dependencies := all }
          ∧ noted.builderVar = inclusion.builderVar
          ∧ ∀ var ∈ all, var ∈ e.dependencies ∨ var = Plan.controllerNode := by
  have alone {noted : Inclusion} (same : noted.builderVar = inclusion.builderVar) {t : State}
      : Plans c underway (pure { e with inclusion := some noted }) t fun e' _ =>
          ∃ noted all,
            e' = { e with inclusion := some noted, dependencies := all }
            ∧ noted.builderVar = inclusion.builderVar
            ∧ ∀ var ∈ all, var ∈ e.dependencies ∨ var = Plan.controllerNode :=
    plans_pure.mpr fun _ _ => ⟨noted, _, rfl, same, fun _ => .inl⟩
  unfold linkSubController
  rw [plans_read_bind]
  split
  · dsimp only
    split
    · exact alone rfl
    rw [plans_isAssignable_bind]
    split
    · refine (addLink_plans _).bind fun _ _ _ => plans_pure.mpr fun _ _ => ?_
      obtain ⟨all, same, grown⟩ := Element.dependOn_eq _ _
      exact ⟨_, all, same, rfl, fun var => (grown var).mp⟩
    · exact plans_report.bind fun _ _ _ => alone rfl
  · exact alone rfl

theorem planInclusion_plans {resources : Option String}
    (placed : c.Placed (.inclusion pos order source id resources))
    : Plans c underway (planInclusion (.inclusion pos order source id resources) source) s
        (Planned c (.inclusion pos order source id resources)) := by
  unfold planInclusion
  refine includeTarget_plans.bindGiven (fun _ => plans_pure_of_not_clean) ?_
  intro target t found
  refine checkMerged_plans.bind fun _ u merged => ?_
  refine Plans.begin placed (fun _ => .inclusion ..) fun e v begun => ?_
  refine claimName_plans.closes fun builderVar w claimed => ?_
  refine linkSubController_plans.closes fun e' x linked => ?_
  refine closes_put _ (fun clean => ?_) fun found y _ _ settled => settled.planned settled.covered
  obtain ⟨between, _, grows, noted, all, rfl, same, depends'⟩ := linked clean
  obtain ⟨before, _, grows', own⟩ := claimed between
  obtain ⟨_, bare, strategy, _, depends, stands, _⟩ := begun before
  obtain ⟨args, builder, none, builderSteps, owner, source, _, steps⟩ := bare
  refine ⟨(stands.mono grows').mono grows, ⟨rfl, rfl, rfl, rfl⟩, finished_of_no_sources ?_ ?_
    (fun name member => ?_) (fun var needed => ?_) placed stands.2.2.2.2.1
    fun none_there => none_there⟩
  · simp [Element.sources, args, builderSteps, source, steps]
  · constructor <;> simp [strategy, args, builder, builderSteps, owner, source, steps]
  · have claimed : name = builderVar := by simpa [Element.builderVars, none, same] using member
    exact claimed ▸ own.mono grows
  · exact (depends' var needed).resolve_left (by simp [depends])

/-! ### Objects -/

/-- Once its content is taken, the object of an element gets its way to come to be. -/
theorem Begun.closes (sound : c.Sound)
    (is : node = .object pos order origin tag id attributes children text)
    (described : c.types.describe type = some descriptor)
    (resolved : s.Clean → ∃ name, c.types.resolveType tag c.document.imports = .ok (some name))
    (begun : s.Clean → Begun c node type .construct e s)
    (filled : s.Clean → Filled c node.pieces nodes { element := e, descriptor } d s)
    : Closes c underway e
        (do
          match ← chooseStrategy d origin tag with
          | none =>
            dropElement e.var
            pure none
          | some d =>
            let element ← finish d
            putElement element
            pure (some element))
        s fun found t => Settled node found t ∧ Covered c nodes t := by
  have same (clean : s.Clean) : d.element = e := (filled clean).recorded.same.1
  refine (chooseStrategy_plans sound (fun clean => (same clean).symm ▸ (begun clean).bare)
    resolved).closesGiven (fun t bad _ => ?_) fun d' t decided => ?_
  · have dropped : Ends c (dropElement e.var) t fun _ _ => False :=
      (ends_modify rfl).mpr bad
    exact dropped.bind fun _ u after => ends_pure.mpr fun clean => (after clean).2.elim
  · refine finish_plans.closes fun e' u finished => ?_
    refine closes_put node (fun clean => ?_) fun found v clean grown settled => ⟨settled, ?_⟩
    · obtain ⟨between, _, later, sets, all, rfl, grown⟩ := finished clean
      obtain ⟨start, _, grows, chosen, builders⟩ := decided between
      have decided : Decided c origin d d' u :=
        ⟨chosen, fun name member => (builders name member).mono later⟩
      have begun := (begun start).mono (grows.trans later)
      have recorded := (filled start).recorded.mono (grows.trans later)
      obtain ⟨var, pos, rank, id⟩ := same start ▸ chosen.same.1
      exact ⟨begun.stands, ⟨var, pos, rank, id⟩, decided.finished is described begun recorded grown⟩
    · obtain ⟨between, _, later, _⟩ := finished clean
      obtain ⟨start, _, grows, _⟩ := decided between
      exact (filled start).covered.mono ((grows.trans later).trans grown)

theorem planObject_settles (sound : c.Sound)
    (is : node = .object pos order origin tag id attributes children text) (placed : c.Placed node)
    (filled : ∀ underway d target t,
      d.There t
      → (t.Clean → Aims d.descriptor (children.filter isValue) text.isSome target)
      → Plans c underway (content d target) t (Filled c (children.flatMap childPieces) nodes d))
    : Plans c underway (planObject node origin tag attributes children text content) s
        fun found t => Settled node found t ∧ Covered c nodes t := by
  unfold planObject
  refine (typeOf_plans sound placed.mem_walk (is ▸ trivial)).bind fun found t typed => ?_
  cases found with
  | none =>
    -- An object of unknown type was reported, so this branch is never clean.
    refine plans_pure.mpr fun clean _ => ((typed clean).holds ?_).elim
    rw [is]
    exact .object ..
  | some type =>
    have finding (clean : t.Clean)
        : (∃ name, c.types.resolveType tag c.document.imports = .ok (some name))
          ∧ (c.types.describe type).isSome := by
      have finding := (typed clean).holds
      rw [is] at finding
      exact finding.2
    rw [plans_describe_bind]
    split
    · rename_i unknown
      refine plans_pure.mpr fun clean _ => ?_
      have known := (finding clean).2
      simp [unknown] at known
    rename_i descriptor described
    refine Plans.begin placed (fun clean => (typed clean).holds.1) fun e u begun => ?_
    have begins : Draft.There { element := e, descriptor } u := fun clean => (begun clean).2.there
    refine (resolveAttributes_plans sound begins).closes fun d v taken => ?_
    refine contentTarget_plans.closes fun target w aimed => ?_
    have aims (clean : w.Clean)
        : Aims d.descriptor (children.filter isValue) text.isSome target := by
      rw [(taken (aimed clean).clean).holds.same.2]
      exact (aimed clean).holds
    have there : d.There w :=
      (begins.after taken fun recorded => recorded.same.1).after aimed fun _ => rfl
    refine (filled _ d target w there aims).closes fun d' x put => ?_
    have begins (clean : x.Clean) : t.Clean ∧ Begun c node type .construct e x := by
      obtain ⟨before, _, third, _⟩ := put clean
      obtain ⟨between, _, second, _⟩ := aimed before
      obtain ⟨first, _, grows, _⟩ := taken between
      exact ⟨(begun first).1, (begun first).2.mono ((grows.trans second).trans third)⟩
    have contained (clean : x.Clean)
        : Recorded c (attributes.map (⟨.own, .attr ·⟩) ++ children.flatMap childPieces)
            { element := e, descriptor } d' x := by
      obtain ⟨before, _, third, content, _⟩ := put clean
      obtain ⟨between, _, second, _⟩ := aimed before
      exact ((taken between).holds.mono (second.trans third)).trans content
    -- The two origins that take words end alike: the words are put, and the draft is closed.
    have worded {words : Value} (given : text = some words)
        (pieces : node.pieces = attributes.map (⟨.own, .attr ·⟩) ++ children.flatMap childPieces
          ++ [⟨.own, .text words⟩])
        : Closes c underway e
            (do
              let d ← putText d' target words
              match ← chooseStrategy d origin tag with
              | none =>
                dropElement e.var
                pure none
              | some d =>
                let element ← finish d
                putElement element
                pure (some element))
            x fun found t => Settled node found t ∧ Covered c nodes t := by
      have aims (clean : x.Clean) : Aims d'.descriptor (children.filter isValue) true target := by
        have aims := aims (put clean).clean
        rw [given] at aims
        rw [(put clean).holds.recorded.same.2]
        exact aims
      have there (clean : x.Clean) : d'.element.var ∈ x.elements.keys := by
        rw [(contained clean).same.1]
        exact (begins clean).2.there
      refine (putText_plans sound there aims).closes fun d'' y said => ?_
      refine Begun.closes sound is described
        (fun clean => (finding (begins (said clean).clean).1).1)
        (fun clean => (begins (said clean).clean).2.mono (said clean).grows) fun clean => ?_
      obtain ⟨before, _, grows, words⟩ := said clean
      refine ⟨?_, (put before).holds.covered.mono grows⟩
      rw [pieces]
      exact ((contained before).mono grows).trans words
    split
    case h_3 =>
      rename_i constructed supplied
      refine Begun.closes sound is described (fun clean => (finding (begins clean).1).1)
        (fun clean => (begins clean).2) fun clean => ⟨?_, (put clean).holds.covered⟩
      have wordless : textPieces origin text = [] := by
        unfold textPieces
        split
        · exact (constructed _ rfl rfl).elim
        · exact (supplied _ rfl rfl).elim
        · rfl
      rw [is, Node.pieces, wordless, append_nil]
      exact contained clean
    all_goals
      exact worded rfl (by rw [is]; rfl)

/-! ### The recursion over the document -/

/-- The nodes of a list that are placed where it stands are placed in the document. -/
def Inside (c : Context) (nodes : List Node) : Prop := ∀ node ∈ nodes, c.Placed node

theorem inside_append {nodes more : List Node}
    : Inside c (nodes ++ more) ↔ Inside c nodes ∧ Inside c more := by
  simp only [Inside, mem_append, or_imp, forall_and]

theorem planChildren_item (target : ContentTarget) (item : isItem child = true) (rest : List Node)
    (d : Draft)
    : planChildren target (child :: rest) d = contribute child (planNode child) >>= fun found =>
        match found with
        | some (source, type) =>
          putContent d target child.pos source type >>= planChildren target rest
        | none => planChildren target rest d := by
  cases child with
  | property | staticProperty | define => cases item
  | _ =>
    rw [planChildren]
    · refine bind_congr fun found => ?_
      rcases found with _ | ⟨source, type⟩ <;> rfl
    all_goals exact nofun

theorem planInner_other (name : String)
    (other : ∀ pos order children, child ≠ .define pos order children) (rest : List Node)
    : planInner name (child :: rest) = if isProperty child then do
          report (.nestedProperty name) child.pos
          planInner name rest
        else planInner name rest := by
  rw [planInner]
  exact other

theorem planDefined_other (other : ∀ pos order source, child ≠ .reference pos order source)
    (rest : List Node)
    : planDefined (child :: rest) = planNode child >>= fun found =>
        match found with
        | some e => putElement { e with attached := false } >>= fun _ => planDefined rest
        | none => planDefined rest := by
  rw [planDefined]
  · refine bind_congr fun found => ?_
    cases found <;> rfl
  · exact other

mutual

theorem planNode_plans (sound : c.Sound) {underway : List String} {s : State} (node : Node)
    (inside : Inside c (node.placed .definition))
    : Plans c underway (planNode node) s (Planned c node) := by
  cases node with
  | object pos order origin tag id attributes children text =>
    refine (planObject_settles sound rfl (inside _ mem_cons_self)
      fun underway d target t there aims => planChildren_plans sound target children there aims
        (fun child member value => mem_filter.mpr ⟨member, value⟩)
        fun node member => inside node (mem_cons_of_mem _ member)).imp fun found t _ after => ?_
    obtain ⟨settled, covered⟩ := after.holds
    exact settled.planned (covered_cons.mpr ⟨settled.covered, covered⟩)
  | constant => exact planConstant_plans sound (inside _ mem_cons_self)
  | copy => exact planCopy_plans sound (inside _ mem_cons_self)
  | inclusion => exact planInclusion_plans (inside _ mem_cons_self)
  | property | staticProperty | define | reference =>
    exact plans_pure.mpr fun _ _ => ⟨fun _ same => (nomatch same), fun _ => False.elim, covered_nil⟩
termination_by sizeOf node

/-- The children of an object are planned, and their pieces have their effects on the draft. -/
theorem planChildren_plans (sound : c.Sound) {underway : List String} {s : State}
    (target : ContentTarget) (children : List Node) {d : Draft} {values : List Node}
    {hasText : Bool} (there : d.There s)
    (aims : s.Clean → Aims d.descriptor values hasText target)
    (listed : ∀ child ∈ children, isValue child = true → child ∈ values)
    (inside : Inside c (Node.placedAll .object children))
    : Plans c underway (planChildren target children d) s
        (Filled c (children.flatMap childPieces) (Node.placedAll .object children) d) := by
  cases children with
  | nil => exact plans_pure.mpr fun _ _ => ⟨.nil, covered_nil⟩
  | cons child rest =>
    obtain ⟨here, later⟩ := inside_append.mp inside
    -- Whatever the child is, the rest is planned on the draft that it leaves.
    have goesOn {d' : Draft} {t : State}
        (filled : t.Clean
          → After c underway s t (Filled c (childPieces child) (child.placed .object) d d' t))
        : Plans c underway (planChildren target rest d') t
            (Filled c ((child :: rest).flatMap childPieces)
              (Node.placedAll .object (child :: rest)) d) := by
      have aims (clean : t.Clean) : Aims d'.descriptor values hasText target := by
        rw [(filled clean).holds.recorded.same.2]
        exact aims (filled clean).clean
      refine (planChildren_plans sound target rest
        (there.after filled fun filled => filled.recorded.same.1) aims
        (fun other member => listed other (mem_cons_of_mem _ member)) later).imp ?_
      exact fun d'' u _ after => (filled after.clean).holds.trans after.grows after.holds
    by_cases item : isItem child = true
    · have pieces : childPieces child = [⟨.own, .node child⟩] := by
        cases child with
        | property | staticProperty | define => cases item
        | object | constant | reference | copy | inclusion => rfl
      rw [placed_of_isItem item .object .definition] at here goesOn
      rw [pieces] at goesOn
      rw [planChildren_item target item]
      refine (contribute_plans sound item (planNode_plans sound child here)).bind
        fun found t after => ?_
      split
      · rename_i source type
        refine (putContent_plans
          (fun clean => aims (after clean).clean)
          (listed child mem_cons_self (isValue_eq_isItem child ▸ item)) child.pos type
          fun clean => (after clean).holds.gives rfl).bind fun d' u put => goesOn fun clean => ?_
        have before := after (put clean).clean
        exact (before.trans (put clean)).imp fun recorded =>
          ⟨recorded, before.holds.covered.mono (put clean).grows⟩
      · exact goesOn fun clean => (after clean).imp fun given => ⟨.skip given.value, given.covered⟩
    · cases child with
      | property pos order name attributes children text =>
        rw [planChildren]
        have is := Eq.refl (Node.property pos order name attributes children text)
        refine (takeProperty_plans sound is there (planInner_plans sound name children here)
          fun p t there found =>
            planItems_plans sound p children there (fun _ _ => found) here).bind fun d' t => goesOn
      | staticProperty pos order owner name children text =>
        rw [planChildren]
        have is := Eq.refl (Node.staticProperty pos order owner name children text)
        exact (takeAttached_plans sound is fun t => planFirst_plans sound children here).bind
          fun d' t => goesOn
      | define pos order children =>
        rw [planChildren]
        refine (planDefined_plans sound children here).bind fun _ t after => ?_
        exact goesOn fun clean => (after clean).imp fun covered => ⟨.nil, covered⟩
      | object | constant | reference | copy | inclusion => exact (item rfl).elim
termination_by sizeOf children

/-- Definitions inside a property element are planned, and properties inside it are refused. -/
theorem planInner_plans (sound : c.Sound) {underway : List String} {s : State} (name : String)
    (children : List Node) (inside : Inside c (Node.placedAll .property children))
    : Plans c underway (planInner name children) s fun _ t =>
        Covered c (Node.placedAll .property (children.filter fun node => !isItem node)) t := by
  cases children with
  | nil => exact plans_pure.mpr fun _ _ => covered_nil
  | cons child rest =>
    obtain ⟨here, later⟩ := inside_append.mp inside
    have goesOn {t : State}
        (covered : t.Clean → isItem child = false → Covered c (child.placed .property) t)
        : Plans c underway (planInner name rest) t fun _ u =>
            Covered c
              (Node.placedAll .property ((child :: rest).filter fun node => !isItem node)) u := by
      refine (planInner_plans sound name rest later).imp fun _ u _ after => ?_
      rw [filter_cons]
      split
      · rename_i other
        refine covered_append.mpr ⟨(covered after.clean ?_).mono after.grows, after.holds⟩
        simpa using other
      · exact after.holds
    by_cases define : ∃ pos order children, child = .define pos order children
    · obtain ⟨pos, order, children, rfl⟩ := define
      rw [planInner]
      refine (planDefined_plans sound children here).bind fun _ t after => ?_
      exact goesOn fun clean _ => (after clean).holds
    · rw [planInner_other name fun pos order children same =>
        define ⟨pos, order, children, same⟩]
      split
      · exact plans_error_bind rfl fun t bad => goesOn fun clean => (bad clean).elim
      · rename_i plain
        refine goesOn fun _ other => ?_
        cases child with
        | property | staticProperty => exact (plain rfl).elim
        | define pos order children => exact (define ⟨pos, order, children, rfl⟩).elim
        | object | constant | reference | copy | inclusion => cases other
termination_by sizeOf children

/-- The items of a property element are planned, and their values are put into the property. -/
theorem planItems_plans (sound : c.Sound) {underway : List String} {s : State} {element : Node}
    (p : PropertyInfo) (children : List Node) {d : Draft}
    (there : d.There s)
    (goes : s.Clean → ∀ node, Piece.property? d.descriptor ⟨.inside element, .node node⟩ = some p)
    (inside : Inside c (Node.placedAll .property children))
    : Plans c underway (planItems p children d) s
        (Filled c ((children.filter isItem).map (⟨.inside element, .node ·⟩))
          (Node.placedAll .property (children.filter isItem)) d) := by
  cases children with
  | nil => exact plans_pure.mpr fun _ _ => ⟨.nil, covered_nil⟩
  | cons child rest =>
    obtain ⟨here, later⟩ := inside_append.mp inside
    rw [planItems]
    split
    · rename_i item
      rw [placed_of_isItem item .property .definition] at here
      rw [filter_cons_of_pos item, map_cons]
      refine (contribute_plans sound item (planNode_plans sound child here)).bind
        fun found t after => ?_
      have goesOn {d' : Draft} {u : State}
          (filled : u.Clean → After c underway s u
            (Filled c [⟨.inside element, .node child⟩] (child.placed .definition) d d' u))
          : Plans c underway (planItems p rest d') u
              (Filled c (⟨.inside element, .node child⟩
                  :: (rest.filter isItem).map (⟨.inside element, .node ·⟩))
                (Node.placedAll .property (child :: rest.filter isItem)) d) := by
        have goes (clean : u.Clean) (node : Node)
            : Piece.property? d'.descriptor ⟨.inside element, .node node⟩ = some p := by
          rw [(filled clean).holds.recorded.same.2]
          exact goes (filled clean).clean node
        refine (planItems_plans sound p rest
          (there.after filled fun filled => filled.recorded.same.1) goes later).imp ?_
        intro d'' v _ after
        rw [Node.placedAll, placed_of_isItem item .property .definition]
        exact (filled after.clean).holds.trans after.grows after.holds
      dsimp only
      split
      · rename_i source type
        refine (putChild_plans rfl (fun clean => goes (after clean).clean child) child.pos
          type fun clean => (after clean).holds.gives rfl).bind fun d' u put => ?_
        refine goesOn fun clean => ?_
        have before := after (put clean).clean
        exact (before.trans (put clean)).imp fun recorded =>
          ⟨recorded, before.holds.covered.mono (put clean).grows⟩
      · exact goesOn fun clean => (after clean).imp fun given =>
          ⟨.skip (.inl given.value), given.covered⟩
    · rename_i other
      rw [filter_cons_of_neg other]
      exact planItems_plans sound p rest there goes later
termination_by sizeOf children

/-- The first value in a property element is planned. -/
theorem planFirst_plans (sound : c.Sound) {underway : List String} {s : State}
    (children : List Node) (inside : Inside c (Node.placedAll .attached children))
    : Plans c underway (planFirst children) s fun found t =>
        ∀ node, children.find? isValue = some node → Contributed c node found t := by
  cases children with
  | nil => exact plans_pure.mpr fun _ _ _ found => nomatch found
  | cons child rest =>
    obtain ⟨here, later⟩ := inside_append.mp inside
    rw [planFirst]
    split
    · rename_i value
      have item := isValue_eq_isItem child ▸ value
      rw [placed_of_isItem item .attached .definition] at here
      refine (contribute_plans sound item (planNode_plans sound child here)).imp ?_
      intro found t _ after node same
      rw [find?_cons_of_pos value] at same
      cases same
      exact after.holds
    · rename_i other
      rw [find?_cons_of_neg other]
      exact planFirst_plans sound rest later
termination_by sizeOf children

theorem planDefined_plans (sound : c.Sound) {underway : List String} {s : State}
    (children : List Node) (inside : Inside c (Node.placedAll .definition children))
    : Plans c underway (planDefined children) s fun _ t =>
        Covered c (Node.placedAll .definition children) t := by
  cases children with
  | nil => exact plans_pure.mpr fun _ _ => covered_nil
  | cons child rest =>
    obtain ⟨here, later⟩ := inside_append.mp inside
    have goesOn {t : State} (covered : t.Clean → Covered c (child.placed .definition) t)
        : Plans c underway (planDefined rest) t fun _ u =>
            Covered c (Node.placedAll .definition (child :: rest)) u := by
      refine (planDefined_plans sound rest later).imp fun _ u _ after => ?_
      exact covered_append.mpr ⟨(covered after.clean).mono after.grows, after.holds⟩
    by_cases reference : ∃ pos order source, child = .reference pos order source
    · obtain ⟨pos, order, source, rfl⟩ := reference
      rw [planDefined, plans_entry?_bind]
      dsimp only
      split
      · exact plans_error_bind rfl fun t bad => goesOn fun clean => (bad clean).elim
      · exact goesOn fun _ => covered_nil
    · rw [planDefined_other fun pos order source same => reference ⟨pos, order, source, same⟩]
      refine (planNode_plans sound child here).bind fun found t after => ?_
      split
      · rename_i e
        refine (reput_plans (fun clean => ((after clean).holds.there e rfl).1) (fun _ => id)
          (fun _ => .inl) e.field false).bind fun _ u put => ?_
        exact goesOn fun clean => (after (put clean).clean).holds.covered.mono (put clean).grows
      · exact goesOn fun clean => (after clean).holds.covered
termination_by sizeOf children

end

end Fxml.Planning
