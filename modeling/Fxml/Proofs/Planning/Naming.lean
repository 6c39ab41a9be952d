import Fxml.Proofs.Planning.Invariant

/-! Names and elements that are added. A new name was not in use, so each node keeps its own
variable; an element is put under its variable once it is finished.
-/

open List

namespace Fxml.Namer

variable {n n' : Namer} {name hint : String}

theorem not_mem_of_usable (h : n.usable name = true) : name ∉ n.taken := by
  simp only [usable, Bool.and_eq_true, Bool.not_eq_true'] at h
  intro member
  simp [member] at h

theorem claim?_eq_some (h : n.claim? name = some n')
    : n.usable name = true ∧ n'.taken = name :: n.taken := by
  unfold claim? at h
  split at h
  · rename_i usable
    cases h
    exact ⟨usable, rfl⟩
  · cases h

theorem usable_of_nextNumber? {base : String} {last tries number : Nat}
    (h : n.nextNumber? base last tries = some number)
    : n.usable (numbered base number) = true := by
  induction tries generalizing last with
  | zero => cases h
  | succ tries ih =>
    rw [nextNumber?] at h
    split at h
    · rename_i usable
      cases h
      exact usable
    · exact ih h

theorem fresh?_eq_some (h : n.fresh? hint = some (name, n'))
    : n.usable name = true
      ∧ (∃ number, name = numbered (Naming.identifier hint) number)
      ∧ n'.taken = name :: n.taken := by
  unfold fresh? at h
  dsimp only at h
  split at h
  · cases h
  · rename_i number found
    obtain ⟨rfl, rfl⟩ := Prod.mk.inj (Option.some.inj h)
    exact ⟨usable_of_nextNumber? found, ⟨number, rfl⟩, rfl⟩

end Fxml.Namer

namespace Fxml.Planning

variable {namer : Namer} {e e' : Element} {node : Node} {c : Context} {s t : State}
  {underway : List String} {α β : Type} {hint type : String} {mid : α → State → Prop}
  {post : β → State → Prop} {strategy : Strategy}

variable {name : String}

/-! ### Names -/

theorem Named.take (h : Named s) (taken : namer.taken = name :: s.namer.taken)
    : Named { s with namer := namer } where
  ranked := h.ranked
  unique := h.unique
  taken rank var member := by
    rw [taken]
    exact mem_cons_of_mem _ (h.taken rank var member)
  free := h.free
  reserved := by
    rw [taken]
    exact subset_cons_of_subset _ h.reserved

theorem extends_take (taken : namer.taken = name :: s.namer.taken)
    : Extends s { s with namer := namer } where
  taken := taken ▸ subset_cons_self _ _
  vars := Subset.refl _
  fresh _ _ := .inl
  elements := Subset.refl _
  bindings := Subset.refl _

/-- A name that was not in use is no variable of a node. -/
theorem Named.private_take (h : Named s) (taken : namer.taken = name :: s.namer.taken)
    (fresh : name ∉ s.namer.taken)
    : Private { s with namer := namer } name :=
  ⟨taken ▸ mem_cons_self, fun rank member => fresh (h.taken rank name member)⟩

/-- A node that has no variable yet is given a name that was not in use. -/
theorem Named.give {rank : Nat} (h : Named s) (taken : namer.taken = name :: s.namer.taken)
    (fresh : name ∉ s.namer.taken) (new : ∀ var, (rank, var) ∉ s.vars)
    : Named { s with namer := namer, vars := (rank, name) :: s.vars } := by
  refine {
    ranked := nodup_cons.mpr ⟨fun member => ?_, h.ranked⟩
    unique := nodup_cons.mpr ⟨fun member => ?_, h.unique⟩
    taken := fun rank' var member => ?_
    free := fun rank' var member => ?_
    reserved := (h.take taken).reserved
  }
  · obtain ⟨⟨_, var⟩, there, rfl⟩ := mem_map.mp member
    exact new var there
  · obtain ⟨⟨other, _⟩, there, rfl⟩ := mem_map.mp member
    exact fresh (h.taken other _ there)
  · rcases mem_cons.mp member with same | old
    · cases same
      rw [taken]
      exact mem_cons_self
    · exact (h.take taken).taken rank' var old
  · rcases mem_cons.mp member with same | old
    · cases same
      exact fun build => fresh (h.reserved build)
    · exact h.free rank' var old

theorem extends_give (rank : Nat) (taken : namer.taken = name :: s.namer.taken)
    (fresh : name ∉ s.namer.taken)
    : Extends s { s with namer := namer, vars := (rank, name) :: s.vars } where
  taken := taken ▸ subset_cons_self _ _
  vars := subset_cons_self _ _
  fresh _ _ member := (mem_cons.mp member).symm.imp id fun same => by
    cases same
    exact fresh
  elements := Subset.refl _
  bindings := Subset.refl _

/-- The invariant when names are given out and nothing else changes. -/
theorem Inv.renamed (inv : Inv c underway s) {vars : List (Nat × String)}
    (named : Named { s with namer := namer, vars := vars })
    (grows : Extends s { s with namer := namer, vars := vars })
    : Inv c underway { s with namer := namer, vars := vars } where
  named := named
  declared id entry found := grows.vars (inv.declared id entry found)
  unique := inv.unique
  standing var e member := by
    obtain ⟨same, node, stands⟩ := inv.standing var e member
    exact ⟨same, node, stands.mono grows⟩
  finished var e member away := (inv.finished var e member away).mono grows
  typed := inv.typed
  included := inv.included
  bound b member := (inv.bound b member).mono grows

/-- A name that was not in use is taken, and nothing else changes. -/
def Takes (name : String) (s t : State) : Prop :=
  name ∉ s.namer.taken
    ∧ ∃ namer : Namer, namer.taken = name :: s.namer.taken ∧ t = { s with namer := namer }

theorem freshName_ends : Ends c (freshName hint) s fun name t => Takes name s t := by
  unfold freshName
  rw [ends_get_bind]
  split
  · rename_i name namer found
    obtain ⟨usable, _, taken⟩ := Namer.fresh?_eq_some found
    rw [ends_modify_bind rfl]
    exact ends_pure.mpr fun _ => ⟨Namer.not_mem_of_usable usable, namer, taken, rfl⟩
  · exact ends_throw

theorem claimName_ends : Ends c (claimName name) s fun found t => Takes found s t := by
  unfold claimName
  rw [ends_get_bind]
  split
  · rename_i namer found
    obtain ⟨usable, taken⟩ := Namer.claim?_eq_some found
    rw [ends_modify_bind rfl]
    exact ends_pure.mpr fun _ => ⟨Namer.not_mem_of_usable usable, namer, taken, rfl⟩
  · exact freshName_ends

theorem claimName_plans : Plans c underway (claimName name) s fun found t => Private t found := by
  refine .of_ends fun inv => claimName_ends.imp ?_
  rintro found t _ start ⟨fresh, namer, taken, rfl⟩
  have named := (inv start).named
  exact ⟨(inv start).renamed (named.take taken) (extends_take taken), extends_take taken,
    named.private_take taken fresh⟩

/-- A node keeps its variable, and gets a name that was not in use if it has none. -/
theorem varOf_ends : Ends c (varOf node hint) s fun var t =>
        ((node.order, var) ∈ s.vars ∧ t = s)
        ∨ (∀ other, (node.order, other) ∉ s.vars)
          ∧ ∃ u, Takes var s u ∧ t = { u with vars := (node.order, var) :: s.vars } := by
  unfold varOf
  rw [ends_get_bind]
  split
  · rename_i var found
    obtain ⟨before, after, same, _⟩ := lookup_eq_some_iff.mp found
    exact ends_pure.mpr fun _ => .inl ⟨by simp [same], rfl⟩
  · rename_i absent
    refine freshName_ends.bind fun var t named => ?_
    rw [ends_modify_bind rfl]
    refine ends_pure.mpr fun clean => .inr ⟨fun other member => ?_, t, (named clean).2, ?_⟩
    · have := lookup_eq_none_iff.mp absent _ member
      simp at this
    · obtain ⟨_, _, _, _, rfl⟩ := named clean
      rfl

theorem varOf_plans
    : Plans c underway (varOf node hint) s fun var t => (node.order, var) ∈ t.vars := by
  refine .of_ends fun inv => varOf_ends.imp ?_
  rintro var t _ start (⟨named, rfl⟩ | ⟨new, _, ⟨fresh, namer, taken, rfl⟩, rfl⟩)
  · exact ⟨inv start, .refl _, named⟩
  · have grows := extends_give node.order taken fresh
    exact ⟨(inv start).renamed ((inv start).named.give taken fresh new) grows, grows, mem_cons_self⟩

/-! ### Elements -/

def State.put (s : State) (e : Element) : State := { s with elements := s.elements.put e.var e }

theorem State.grows_put (s : State) (e : Element) : Extends s (s.put e) :=
  .of_same_names rfl rfl (fun _ member => Table.mem_keys_put.mpr (.inr member)) (Subset.refl _)

theorem State.mem_put (s : State) (e : Element) : (e.var, e) ∈ (s.put e).elements :=
  Table.mem_put.mpr (.inl ⟨rfl, rfl⟩)

theorem putElement_ends : Ends c (putElement e) s fun _ t => t = s.put e :=
  (ends_modify rfl).mpr fun _ => rfl

/-- An element of a node may be put, finished or under way; one that is finished is no longer under
way.
-/
theorem Inv.put {more less : List String} (inv : Inv c more s) (stands : StandsFor c s e node)
    (finished : e.var ∉ less → Finished c s e) (fewer : ∀ var ∈ more, var = e.var ∨ var ∈ less)
    : Inv c less (s.put e) := by
  have grows := s.grows_put e
  refine {
    named := ⟨inv.named.ranked, inv.named.unique, inv.named.taken, inv.named.free,
      inv.named.reserved⟩
    declared := inv.declared
    unique := Table.nodup_put inv.unique _ _
    standing := fun var e' member => ?_
    finished := fun var e' member away => ?_
    typed := inv.typed
    included := inv.included
    bound := fun b member => (inv.bound b member).mono grows
  }
  · rcases Table.mem_put.mp member with ⟨rfl, rfl⟩ | ⟨_, old⟩
    · exact ⟨rfl, node, stands.mono grows⟩
    · obtain ⟨same, other, stands'⟩ := inv.standing var e' old
      exact ⟨same, other, stands'.mono grows⟩
  · rcases Table.mem_put.mp member with ⟨rfl, rfl⟩ | ⟨different, old⟩
    · exact (finished away).mono grows
    · refine (inv.finished var e' old fun under => ?_).mono grows
      exact (fewer var under).elim different away

/-! ### Elements under way -/

/-- A computation during which an element under way is finished. -/
def Closes (c : Context) (underway : List String) (e : Element) (x : Planning α) (s : State)
    (post : α → State → Prop)
    : Prop :=
  (s.Clean → Inv c (e.var :: underway) s)
    → Ends c x s fun a t => Inv c underway t ∧ Extends s t ∧ post a t

theorem Plans.closes {x : Planning α} {f : α → Planning β}
    (first : Plans c (e.var :: underway) x s mid) (second : ∀ a t,
      (t.Clean → After c (e.var :: underway) s t (mid a t)) → Closes c underway e (f a) t post)
    : Closes c underway e (x >>= f) s post := by
  intro inv
  refine (first.ends inv).bind fun a t between => ?_
  have after (clean : t.Clean) : After c (e.var :: underway) s t (mid a t) := by
    obtain ⟨start, kept, grows, stated⟩ := between clean
    exact ⟨start, kept, grows, stated⟩
  refine (second a t after fun clean => (after clean).inv).imp ?_
  rintro b u _ clean ⟨closed, grows, stated⟩
  exact ⟨closed, (after clean).grows.trans grows, stated⟩

/-- Where a value must be given, the rest starts from one. -/
theorem Plans.closesGiven {x : Planning (Option α)} {f : Option α → Planning β}
    (first : Plans c (e.var :: underway) x s (Given mid))
    (fails : ∀ t, ¬t.Clean → Closes c underway e (f none) t post) (second : ∀ a t,
      (t.Clean → After c (e.var :: underway) s t (mid a t))
      → Closes c underway e (f (some a)) t post)
    : Closes c underway e (x >>= f) s post := by
  refine first.closes fun found t after => ?_
  cases found with
  | none =>
    refine fails t fun clean => ?_
    obtain ⟨_, impossible, _⟩ := (after clean).holds
    cases impossible
  | some a =>
    refine second a t fun clean => ?_
    obtain ⟨start, inv, grows, _, same, stated⟩ := after clean
    cases same
    exact ⟨start, inv, grows, stated⟩

/-- Two elements belong to the same node. -/
structure SameNode (e e' : Element) : Prop where
  var : e'.var = e.var
  pos : e'.pos = e.pos
  order : e'.order = e.order
  id : e'.id = e.id

theorem StandsFor.of_same (h : StandsFor c s e node) (same : SameNode e e')
    : StandsFor c s e' node := by
  obtain ⟨placed, grounded, member, pos, order, id⟩ := h
  exact ⟨placed, grounded, same.var ▸ member, same.pos.trans pos, same.order.trans order,
    same.id.trans id⟩

def Settled (node : Node) (found : Option Element) (s : State) : Prop :=
  ∃ e, found = some e ∧ (e.var, e) ∈ s.elements ∧ (node.order, e.var) ∈ s.vars

theorem closes_put (node : Node) {post : Option Element → State → Prop}
    (pre : s.Clean → StandsFor c s e node ∧ SameNode e e' ∧ Finished c s e')
    (stated : ∀ found t, s.Clean → Extends s t → Settled node found t → post found t)
    : Closes c underway e (putElement e' >>= fun _ => pure (some e')) s post := by
  intro inv
  refine putElement_ends.bind fun _ t put => ends_pure.mpr fun clean => ?_
  obtain ⟨start, rfl⟩ := put clean
  obtain ⟨stands, same, finished⟩ := pre start
  have stands := stands.of_same same
  have grows := s.grows_put e'
  refine ⟨(inv start).put stands (fun _ => finished) fun var under => ?_, grows,
    stated _ _ start grows ⟨e', rfl, s.mem_put e', stands.2.2.1⟩⟩
  rw [same.var]
  exact mem_cons.mp under

/-- The element of a node that has just been put, with nothing in it. -/
structure Begun (c : Context) (node : Node) (type : String) (strategy : Strategy) (e : Element)
    (s : State)
    : Prop where
  bare : Bare e
  strategy : e.strategy = strategy
  type : e.type = type
  depends : e.dependencies = []
  stands : StandsFor c s e node
  there : e.var ∈ s.elements.keys

theorem Begun.mono (h : Begun c node type strategy e s) (grows : Extends s t)
    : Begun c node type strategy e t :=
  { h with stands := h.stands.mono grows, there := grows.elements h.there }

/-- A computation that starts with a new element must finish it. -/
theorem Plans.begin {f : Element → Planning α} {post : α → State → Prop} (placed : c.Placed node)
    (grounded : s.Clean → c.Grounded node)
    (rest : ∀ e t,
      (t.Clean → s.Clean ∧ Begun c node type strategy e t) → Closes c underway e (f e) t post)
    : Plans c underway (newElement node type strategy hint >>= f) s post := by
  refine .of_ends fun inv => ?_
  unfold newElement
  rw [bind_assoc]
  refine (varOf_plans.ends inv).bind fun var t named => ?_
  rw [bind_assoc]
  refine putElement_ends.bind fun _ u put => ?_
  rw [pure_bind]
  have stands (clean : t.Clean) : StandsFor c t
      { var, type, strategy, pos := node.pos, order := node.order, id := node.id? } node :=
    ⟨placed, grounded (named clean).1, (named clean).2.2.2, rfl, rfl, rfl⟩
  refine Ends.imp (rest _ u (fun clean => ?_) fun clean => ?_) fun a v clean between after => ?_
  · obtain ⟨between, rfl⟩ := put clean
    exact ⟨(named between).1, ⟨rfl, rfl, rfl, rfl, rfl, rfl, rfl, rfl⟩, rfl, rfl, rfl,
      (stands between).mono (t.grows_put _), Table.mem_keys_of_mem (t.mem_put _)⟩
  · obtain ⟨between, rfl⟩ := put clean
    exact (named between).2.1.put (stands between) (fun away => (away mem_cons_self).elim)
      fun var under => .inr (mem_cons_of_mem _ under)
  · obtain ⟨first, rfl⟩ := put between
    obtain ⟨_, _, grows, _⟩ := named first
    exact ⟨after.1, (grows.trans (t.grows_put _)).trans after.2.1, after.2.2⟩

end Fxml.Planning
