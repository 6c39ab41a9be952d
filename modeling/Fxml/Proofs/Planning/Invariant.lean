import Fxml.Proofs.Planning.Records
import Fxml.Proofs.Planning.Run

/-! What holds of the working state at every point of a run without errors: each finished element
belongs to a placed and grounded node, takes its values from there, has the parts that its strategy
needs, and depends on all it reads and nothing else. `Plans` is the judgement of a run that keeps
this.
-/

open List Fxml.Planning

namespace Fxml.Planning

variable {α β : Type} {c : Context} {s t : State} {underway : List String} {a : α} {node : Node}
  {e : Element} {x : Planning α} {post mid : α → State → Prop} {type : String} {items : List β}
  {body : β → PUnit → Planning (ForInStep PUnit)} {problem : Problem} {pos : Position}

/-! ### Parts of the state -/

/-- An element is the one of a placed and grounded node. -/
def StandsFor (c : Context) (s : State) (e : Element) (node : Node) : Prop :=
  c.Placed node ∧ c.Grounded node ∧ (node.order, e.var) ∈ s.vars
    ∧ e.pos = node.pos ∧ e.order = node.order ∧ e.id = node.id?

/-- A name in use that is not the variable of a node. -/
def Private (s : State) (name : String) : Prop :=
  name ∈ s.namer.taken ∧ ∀ rank, (rank, name) ∉ s.vars

/-- A finished element. -/
structure Finished (c : Context) (s : State) (e : Element) : Prop where
  shaped : e.Shaped
  builders : ∀ name ∈ e.builderVars, Private s name
  reads : ∀ source ∈ e.sources, Reads c s source
  depends : ∀ source ∈ e.sources, source.needs c.varOf ⊆ e.dependencies
  justified : Justified c e
  told : ∃ node ∈ c.document.root.walk, e.order = node.order ∧ Told c s e node

/-- What is found out about the type of a node: none only for a copy that is not grounded. -/
def Finding (c : Context) (node : Node) : Option String → Prop
  | none => ¬c.Grounded node
  | some type =>
    c.Grounded node ∧
      match node with
      | .object _ _ _ tag .. =>
        (∃ name, c.types.resolveType tag c.document.imports = .ok (some name))
          ∧ (c.types.describe type).isSome
      | .constant _ _ tag .. =>
        ∃ name, c.types.resolveType tag c.document.imports = .ok (some name)
      | _ => True

/-- The types noted are right, except for nodes that are being found out. -/
def Typed (c : Context) (busy : List Node) (s : State) : Prop :=
  ∀ node ∈ c.document.root.walk,
    node ∉ busy → ∀ found, s.types.lookup node.order = some found → Finding c node found

/-- Included documents that were looked up were found. -/
def Included (s : State) : Prop :=
  ∀ rank target, s.includes.lookup rank = some target → target.isSome

/-- A binding of an element to an expression over declared ids. -/
def Bound (c : Context) (s : State) (b : Binding) : Prop :=
  b.var ∈ s.elements.keys
    ∧ ∃ e, b.value = .once e ∧ ∀ r ∈ e.references, r.isController = true ∨ Declared c r.name

/-- Each node has one variable, each variable one node, and none is a name of the method itself. -/
structure Named (s : State) : Prop where
  ranked : (s.vars.map Prod.fst).Nodup
  unique : (s.vars.map Prod.snd).Nodup
  taken : ∀ rank var, (rank, var) ∈ s.vars → var ∈ s.namer.taken
  free : ∀ rank var, (rank, var) ∈ s.vars → var ∉ Naming.buildNames
  reserved : Naming.buildNames ⊆ s.namer.taken

/-! ### The invariant -/

/-- What holds at every point of a run without errors, given the variables under way. -/
structure Inv (c : Context) (underway : List String) (s : State) : Prop where
  named : Named s
  declared : ∀ id entry, c.registry.get? id = some entry → (entry.node.order, entry.var) ∈ s.vars
  unique : s.elements.keys.Nodup
  standing : ∀ var e, (var, e) ∈ s.elements → e.var = var ∧ ∃ node, StandsFor c s e node
  finished : ∀ var e, (var, e) ∈ s.elements → var ∉ underway → Finished c s e
  typed : Typed c [] s
  included : Included s
  bound : ∀ b ∈ s.bindings, Bound c s b

theorem StandsFor.mono (h : StandsFor c s e node) (grows : Extends s t) : StandsFor c t e node := by
  obtain ⟨placed, grounded, member, same⟩ := h
  exact ⟨placed, grounded, grows.vars member, same⟩

theorem Private.mono {name : String} (h : Private s name) (grows : Extends s t) : Private t name :=
  ⟨grows.taken h.1, fun rank member =>
    (grows.fresh rank name member).elim (h.2 rank) fun new => new h.1⟩

theorem Finished.mono (h : Finished c s e) (grows : Extends s t) : Finished c t e where
  shaped := h.shaped
  builders name member := (h.builders name member).mono grows
  reads source member := (h.reads source member).mono grows
  depends := h.depends
  justified := h.justified
  told := h.told.imp fun _ ⟨inside, order, told⟩ => ⟨inside, order, told.mono grows⟩

theorem Bound.mono {b : Binding} (h : Bound c s b) (grows : Extends s t) : Bound c t b :=
  ⟨grows.elements h.1, h.2⟩

/-! ### The judgement -/

/-- What is known after a computation that ended without an error. -/
structure After (c : Context) (underway : List String) (s t : State) (stated : Prop)
    : Prop where
  clean : s.Clean
  inv : Inv c underway t
  grows : Extends s t
  holds : stated

theorem After.imp {p q : Prop} (h : After c underway s t p) (weaker : p → q)
    : After c underway s t q :=
  ⟨h.clean, h.inv, h.grows, weaker h.holds⟩

theorem After.trans {u : State} {p q : Prop} (first : After c underway s t p)
    (second : After c underway t u q)
    : After c underway s u q :=
  ⟨first.clean, second.inv, first.grows.trans second.grows, second.holds⟩

/-- A computation keeps the invariant, only adds, and ends as stated. -/
def Plans (c : Context) (underway : List String) (x : Planning α) (s : State)
    (post : α → State → Prop)
    : Prop :=
  (s.Clean → Inv c underway s) → ∀ a t, Yields c x s a t → t.Clean → After c underway s t (post a t)

theorem Plans.ends (h : Plans c underway x s post) (inv : s.Clean → Inv c underway s)
    : Ends c x s fun a t => Inv c underway t ∧ Extends s t ∧ post a t := by
  intro a t run clean
  have after := h inv a t run clean
  exact ⟨after.clean, after.inv, after.grows, after.holds⟩

theorem Plans.of_ends
    (h : (s.Clean → Inv c underway s)
      → Ends c x s fun a t => Inv c underway t ∧ Extends s t ∧ post a t)
    : Plans c underway x s post := by
  intro inv a t run clean
  obtain ⟨start, kept, grows, stated⟩ := h inv a t run clean
  exact ⟨start, kept, grows, stated⟩

/-- The invariant may be used that holds at the start. -/
theorem Plans.given (h : (s.Clean → Inv c underway s) → Plans c underway x s post)
    : Plans c underway x s post :=
  fun inv => h inv inv

theorem Plans.bind {f : α → Planning β} {post : β → State → Prop} (first : Plans c underway x s mid)
    (second : ∀ a t, (t.Clean → After c underway s t (mid a t)) → Plans c underway (f a) t post)
    : Plans c underway (x >>= f) s post := by
  intro inv b u run clean
  obtain ⟨a, t, one, two⟩ := run.of_bind
  have between := first inv a t one
  have after := second a t between (fun ok => (between ok).inv) b u two clean
  exact (between after.clean).trans after

theorem Plans.bindGiven {x : Planning (Option α)} {f : Option α → Planning β}
    {post : β → State → Prop} (first : Plans c underway x s (Given mid))
    (fails : ∀ t, ¬t.Clean → Plans c underway (f none) t post)
    (second : ∀ a t,
      (t.Clean → After c underway s t (mid a t)) → Plans c underway (f (some a)) t post)
    : Plans c underway (x >>= f) s post := by
  refine first.bind fun found t after => ?_
  cases found with
  | none =>
    refine fails t fun clean => ?_
    obtain ⟨_, impossible, _⟩ := (after clean).holds
    cases impossible
  | some a =>
    refine second a t fun clean => ?_
    obtain ⟨start, inv, grows, _, same, stated⟩ := after clean
    cases same
    exact ⟨start, inv, grows, stated⟩

theorem Plans.imp {post' : α → State → Prop} (h : Plans c underway x s post)
    (weaker : ∀ a t, t.Clean → After c underway s t (post a t) → post' a t)
    : Plans c underway x s post' := by
  intro inv a t run clean
  have after := h inv a t run clean
  exact after.imp fun _ => weaker a t clean after

@[simp] theorem plans_pure
    : Plans c underway (pure a) s post ↔ (s.Clean → Inv c underway s → post a s) := by
  constructor
  · intro h clean inv
    exact (h (fun _ => inv) a s (yields_pure.mpr ⟨rfl, rfl⟩) clean).holds
  · intro h inv b t run clean
    obtain ⟨rfl, rfl⟩ := yields_pure.mp run
    exact ⟨clean, inv clean, .refl _, h clean (inv clean)⟩

theorem plans_pure_trivial : Plans c underway (pure a) s fun _ _ => True :=
  plans_pure.mpr fun _ _ => trivial

theorem plans_pure_of_not_clean (h : ¬s.Clean) : Plans c underway (pure a) s post :=
  plans_pure.mpr fun clean => (h clean).elim

@[simp] theorem plans_get_bind {f : State → Planning α}
    : Plans c underway (get >>= f) s post ↔ Plans c underway (f s) s post :=
  Iff.rfl

@[simp] theorem plans_read_bind {f : Context → Planning α}
    : Plans c underway (read >>= f) s post ↔ Plans c underway (f c) s post :=
  Iff.rfl

@[simp] theorem plans_entry?_bind {id : String} {f : Option Entry → Planning α}
    : Plans c underway ( entry? id >>= f) s post
      ↔ Plans c underway (f (c.registry.get? id)) s post :=
  Iff.rfl

@[simp] theorem plans_describe_bind {f : Option TypeDescriptor → Planning α}
    : Plans c underway (describe type >>= f) s post
      ↔ Plans c underway (f (c.types.describe type)) s post :=
  Iff.rfl

@[simp] theorem plans_isAssignable_bind {target : String} {f : Bool → Planning α}
    : Plans c underway (isAssignable target type >>= f) s post
      ↔ Plans c underway (f (c.types.isAssignable target type)) s post :=
  Iff.rfl

/-- A change that leaves the diagnostics alone. -/
theorem Plans.modify {f : State → State} {post : Unit → State → Prop}
    (same : (f s).diagnostics = s.diagnostics)
    (keeps : s.Clean → Inv c underway s → Inv c underway (f s))
    (grows : Extends s (f s)) (stated : s.Clean → Inv c underway s → post () (f s))
    : Plans c underway (modify f) s post :=
  .of_ends fun inv => (ends_modify same).mpr fun clean =>
    ⟨keeps clean (inv clean), grows, stated clean (inv clean)⟩

/-- The invariant where names and elements stay as they are. -/
theorem Inv.renoted (inv : Inv c underway s) (namer : t.namer = s.namer) (vars : t.vars = s.vars)
    (elements : t.elements = s.elements) (bindings : s.bindings ⊆ t.bindings)
    (typed : Typed c [] t) (included : Included t) (bound : ∀ b ∈ t.bindings, Bound c t b)
    : Inv c underway t := by
  obtain ⟨ds, _, _, types, includes, exported, _, all, links⟩ := t
  cases namer
  cases vars
  cases elements
  have named := inv.named
  exact {
    named := ⟨named.ranked, named.unique, named.taken, named.free, named.reserved⟩
    declared := inv.declared
    unique := inv.unique
    standing := inv.standing
    finished := fun var e member away =>
      (inv.finished var e member away).mono (.of_same_names rfl rfl (Subset.refl _) bindings)
    typed
    included
    bound
  }

theorem Inv.congr (inv : Inv c underway s) (diagnostics : Diagnostics) (exported : Table Node)
    (links : List Link)
    : Inv c underway { s with diagnostics := diagnostics, exported := exported, links := links } :=
  inv.renoted rfl rfl rfl (Subset.refl _) inv.typed inv.included inv.bound

theorem addLink_plans (link : Link) : Plans c underway (addLink link) s fun _ _ => True :=
  .modify rfl (fun _ inv => inv.congr _ _ _) (.of_same rfl rfl rfl rfl) fun _ _ => trivial

/-- A warning changes nothing that is planned, and after an error there is nothing to show. -/
theorem Plans.report {post : Unit → State → Prop}
    (stated : problem.severity = .warning → s.Clean → ∀ ds, post () { s with diagnostics := ds })
    : Plans c underway (report problem pos) s post :=
  .of_ends fun inv => .report fun warning clean ds =>
    ⟨(inv clean).congr ds _ _, .of_same rfl rfl rfl rfl, stated warning clean ds⟩

theorem plans_report : Plans c underway (report problem pos) s fun _ _ => True :=
  .report fun _ _ _ => trivial

theorem plans_error (h : problem.severity = .error)
    : Plans c underway (report problem pos) s fun _ _ => False :=
  .report fun warning => by rw [h] at warning; cases warning

/-- What follows an error report never ends without an error. -/
theorem plans_error_bind {f : Unit → Planning α} (h : problem.severity = .error)
    (rest : ∀ t, ¬t.Clean → Plans c underway (f ()) t post)
    : Plans c underway (report problem pos >>= f) s post :=
  (plans_error h).bind fun _ t after => rest t fun clean => (after clean).holds

theorem plans_refuse (h : problem.severity = .error)
    : Plans c underway (report problem pos >>= fun _ => pure a) s post :=
  plans_error_bind h fun _ => plans_pure_of_not_clean

/-! ### Loops -/

theorem Plans.loop (round : ∀ item ∈ items, ∀ t, Plans c underway (body item ⟨⟩) t fun _ _ => True)
    : Plans c underway (forIn items ⟨⟩ body) s fun _ _ => True := by
  induction items generalizing s with
  | nil => exact plans_pure_trivial
  | cons item rest ih =>
    rw [forIn_cons]
    refine (round item mem_cons_self s).bind fun next t _ => ?_
    cases next with
    | done => exact plans_pure_trivial
    | yield => exact ih fun other member => round other (mem_cons_of_mem _ member)

/-- A loop whose rounds all report errors has no rounds. -/
theorem Plans.noRounds (round : ∀ item ∈ items, ∀ t, Ends c (body item ⟨⟩) t fun _ _ => False)
    : Plans c underway (forIn items ⟨⟩ body) s fun _ t => items = [] ∧ t = s := by
  refine .of_ends fun inv => (Ends.noRounds round).imp ?_
  rintro _ t _ start ⟨empty, rfl⟩
  exact ⟨inv start, .refl _, empty, rfl⟩

end Fxml.Planning
