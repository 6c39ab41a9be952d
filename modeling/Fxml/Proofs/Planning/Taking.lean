import Fxml.Proofs.Planning.Sources

/-! What is taken from the single pieces of an element's content, in a run without errors: each has
one effect on the draft, and the effect is one that the piece is due.
-/

open List

namespace Fxml.Planning

variable {α : Type} {c : Context} {s t : State} {underway : List String} {type : TypeDescriptor}
  {ownerTag name : String} {p property : PropertyInfo} {a : Attribute} {values : List Node}
  {hasText : Bool} {target : ContentTarget} {node : Node} {piece : Piece} {value : Value}
  {source : Source} {d : Draft} {pos : Position} {attributes : List Attribute}

/-! ### Steps and values that are kept -/

theorem recorded_addStep {step : Step} (gives : piece.Gives c.types (Standing c s) step.source)
    (other : step.kind ≠ .set ∧ step.kind ≠ .handler) (free : piece.set? d.descriptor = none)
    (sensible : Sensible c s step)
    : Recorded c [piece] d (d.addStep step) s :=
  .one (.step step) ⟨gives, free.trans (if_neg other.1).symm, other.2⟩ sensible

theorem Piece.set?_eq_none (free : piece.property? type = none) : piece.set? type = none := by
  simp [Piece.set?, Piece.single?, free]

/-- The only value of a property is set or kept for construction. -/
theorem recorded_store (gives : piece.Gives c.types (Standing c s) source)
    (single : piece.single? d.descriptor = some p) (site : Site) (reads : Reads c s source)
    : Recorded c [piece] d (d.store p source site) s := by
  unfold Draft.store
  split
  · rename_i settable
    refine .one (.step _) ⟨gives, ?_, nofun⟩ ⟨rfl, reads⟩
    simp [Piece.set?, single, settable]
  · rename_i fixed
    refine .one (.hold p.name source site) ⟨gives, ?_⟩ reads
    simp [Piece.kept?, single, fixed]

/-- Values of any form are put into a property in the same way. -/
theorem isSingle_of_value? (has : piece.value? = some value) (p : PropertyInfo)
    : piece.matter.isSingle p
      = !(p.kind == .list || ((TypeName.listItem? p.type).isSome && !p.settable)) := by
  obtain ⟨slot, matter⟩ := piece
  cases matter with
  | node => cases has
  | attr | text | blank => rfl

/-- The element of a draft is in the plan, unless there was an error. -/
def Draft.There (d : Draft) (s : State) : Prop := s.Clean → d.element.var ∈ s.elements.keys

theorem Draft.There.after {d d' : Draft} {stated : Prop} (there : d.There s)
    (after : t.Clean → After c underway s t stated) (same : stated → d'.element = d.element)
    : d'.There t := by
  intro clean
  rw [same (after clean).holds]
  exact (after clean).grows.elements (there (after clean).clean)

/-- Items that have one effect each are recorded one after the other. -/
theorem Plans.record {items : List α} {f : Draft → α → Planning Draft} {pieces : α → Piece}
    (there : d.There s)
    (round : ∀ d, ∀ item ∈ items, ∀ t, d.There t
      → Plans c underway (f d item) t (Recorded c [pieces item] d))
    : Plans c underway (items.foldlM f d) s (Recorded c (items.map pieces) d) := by
  induction items generalizing s d with
  | nil => exact plans_pure.mpr fun _ _ => .nil
  | cons item rest ih =>
    rw [foldlM_cons]
    refine (round d item mem_cons_self s there).bind fun d' t after => ?_
    refine (ih (there.after after fun recorded => recorded.same.1)
      fun d other member => round d other (mem_cons_of_mem _ member)).imp ?_
    exact fun d'' u _ taken => ((after taken.clean).holds.mono taken.grows).trans taken.holds

/-! ### Where content goes -/

/-- Where the content of an element goes, given its type and content. -/
def Aims (type : TypeDescriptor) (values : List Node) (hasText : Bool) : ContentTarget → Prop
  | .self => type.collection = some .list
  | .property p =>
    type.collection ≠ some .list ∧ type.defaultProperty.bind type.properties.get? = some p
  | .nothing =>
    values = [] ∧ (hasText = true → type.collection ≠ some .list ∧ type.defaultProperty = none)

theorem contentTarget_plans
    : Plans c underway (contentTarget type pos values hasText) s fun target _ =>
        Aims type values hasText target := by
  unfold contentTarget
  dsimp only
  split
  · rename_i nothing
    simp only [Bool.and_eq_true, List.isEmpty_iff, Bool.not_eq_true'] at nothing
    exact plans_pure.mpr fun _ _ => ⟨nothing.1, by simp [nothing.2]⟩
  split
  · rename_i list
    exact plans_pure.mpr fun _ _ => list
  rename_i other
  split
  · rename_i noDefault
    split
    · exact plans_refuse rfl
    · rename_i noValue
      have empty : values = [] :=
        head?_eq_none_iff.mp (Option.eq_none_iff_forall_ne_some.mpr noValue)
      exact plans_pure.mpr fun _ _ => ⟨empty, fun _ => ⟨other, noDefault⟩⟩
  rename_i name default
  split
  · exact plans_refuse rfl
  rename_i p found
  split
  · exact plans_refuse rfl
  generalize values.length + (if !values.isEmpty && hasText then 1 else 0) = count
  split
  · exact plans_refuse rfl
  · exact plans_pure.mpr fun _ _ => ⟨other, by simp [default, found]⟩

/-- A child is put into a property as the element that it stands for. -/
theorem putChild_plans (is : piece.matter = .node node)
    (goes : s.Clean → piece.property? d.descriptor = some p) (pos : Position) (type : Option String)
    (gives : s.Clean → piece.Gives c.types (Standing c s) source ∧ Reads c s source)
    : Plans c underway (putChild d p pos source type) s (Recorded c [piece] d) := by
  unfold putChild
  split
  all_goals
    rename_i kind
    refine checkAssignable_plans.bind fun _ t after => plans_pure.mpr fun clean _ => ?_
    obtain ⟨start, _, grows, _⟩ := after clean
    have gives' := (gives start).1.mono fun _ _ stands => stands.mono grows
    have reads := (gives start).2.mono grows
  · refine recorded_addStep gives' ⟨nofun, nofun⟩ ?_ ⟨rfl, reads⟩
    simp [Piece.set?, Piece.single?, goes start, is, Matter.isSingle, kind]
  · refine recorded_store gives' ?_ _ reads
    simp [Piece.single?, goes start, is, Matter.isSingle, kind]

theorem putContent_plans (aims : s.Clean → Aims d.descriptor values hasText target)
    (member : node ∈ values) (pos : Position) (type : Option String)
    (gives : s.Clean →
      Piece.Gives c.types (Standing c s) ⟨.own, .node node⟩ source ∧ Reads c s source)
    : Plans c underway (putContent d target pos source type) s
        (Recorded c [⟨.own, .node node⟩] d) := by
  unfold putContent
  split
  · refine plans_pure.mpr fun clean _ => ?_
    rw [(aims clean).1] at member
    cases member
  · refine checkAssignable_plans.bind fun _ t after => plans_pure.mpr fun clean _ => ?_
    obtain ⟨start, _, grows, _⟩ := after clean
    have list : d.descriptor.collection = some .list := aims start
    refine recorded_addStep ((gives start).1.mono fun _ _ stands => stands.mono grows)
      ⟨nofun, nofun⟩ ?_ ⟨rfl, (gives start).2.mono grows⟩
    exact Piece.set?_eq_none (by simp [Piece.property?, list])
  · refine putChild_plans rfl (fun clean => ?_) pos type gives
    obtain ⟨other, found⟩ := aims clean
    simp [Piece.property?, other, found]

/-! ### Values -/

section

variable (sound : c.Sound)

include sound

theorem plans_put {type : String} {put : Source → Draft} {post : Draft → State → Prop}
    (has : piece.value? = some value)
    (puts : ∀ source t,
      s.Clean → piece.Gives c.types (Standing c t) source → Reads c t source → post (put source) t)
    : Plans c underway
        (valueSource value type pos >>= fun found => match found with
          | some source => pure (put source)
          | none => pure d)
        s post := by
  refine (valueSource_plans sound).bindGiven (fun _ => plans_pure_of_not_clean) ?_
  refine fun source t after => plans_pure.mpr fun clean _ => ?_
  obtain ⟨makes, reads⟩ := (after clean).holds
  exact puts source t (after clean).clean (.value has makes) (reads t)

theorem bindProperty_plans {e : Expr} (there : d.There s)
    : Plans c underway (bindProperty d property e pos) s fun _ t =>
        ⟨pos, d.element.var, property.name, .once e⟩ ∈ t.bindings := by
  unfold bindProperty
  split
  · exact .report nofun
  split
  · exact .report nofun
  refine checkReferences_plans.bind fun fine t checked => ?_
  split
  · refine (checkStaticType_plans sound).bind fun _ u compared => ?_
    have more := subset_append_left u.bindings [⟨pos, d.element.var, property.name, .once e⟩]
    refine .modify rfl (fun clean inv => inv.renoted rfl rfl rfl more inv.typed inv.included ?_)
      (.of_same_names rfl rfl (Subset.refl _) more) fun _ _ => by simp
    intro b member
    rcases mem_append.mp member with old | new
    · exact inv.bound b old
    · obtain rfl := mem_singleton.mp new
      have between := checked (compared clean).clean
      have grows := between.grows.trans (compared clean).grows
      exact ⟨grows.elements (there between.clean), e, rfl, between.holds.2⟩
  · rename_i bad
    exact plans_pure_of_not_clean fun clean => bad (checked clean).holds.1

theorem assignProperty_plans (there : d.There s) (has : piece.value? = some value)
    (goes : s.Clean → piece.property? d.descriptor = some property) (site : Site)
    : Plans c underway (assignProperty d property value site) s (Recorded c [piece] d) := by
  unfold assignProperty
  split
  · rename_i pos e
    refine (bindProperty_plans sound there).bind fun _ t after => plans_pure.mpr fun clean _ => ?_
    obtain ⟨start, _, _, bound⟩ := after clean
    exact .one (.bind _) ⟨bound, rfl, pos, e, property, has, rfl, goes start, rfl⟩ trivial
  dsimp only
  split
  · rename_i many
    refine plans_put sound has fun source t start gives reads => ?_
    refine recorded_addStep gives ⟨nofun, nofun⟩ ?_ ⟨rfl, reads⟩
    simp only [Piece.set?, Piece.single?, goes start, Option.filter_some, isSingle_of_value? has,
      many]
    rfl
  split
  · exact plans_refuse rfl
  · rename_i single _
    refine plans_put sound has fun source t start gives reads => ?_
    refine recorded_store gives ?_ site reads
    rw [Piece.single?, goes start, Option.filter_some, isSingle_of_value? has]
    simp [single]

theorem attach_plans (piece : Piece) (has : piece.value? = some value)
    (free : piece.property? d.descriptor = none)
    : Plans c underway (attach d ownerTag name value pos) s (Recorded c [piece] d) := by
  unfold attach
  refine attachedType_plans.bindGiven (fun _ => plans_pure_of_not_clean) ?_
  rintro ⟨owner, type⟩ t _
  refine plans_put sound has fun source u _ gives reads => ?_
  exact recorded_addStep gives ⟨nofun, nofun⟩ (Piece.set?_eq_none free) ⟨rfl, reads⟩

theorem putText_plans {text : Value} (there : d.There s)
    (aims : s.Clean → Aims d.descriptor values true target)
    : Plans c underway (putText d target text) s (Recorded c [⟨.own, .text text⟩] d) := by
  have has : Piece.value? ⟨.own, .text text⟩ = some text := rfl
  unfold putText
  split
  · refine plans_put sound has fun source t start gives reads => ?_
    have list : d.descriptor.collection = some .list := aims start
    refine recorded_addStep gives ?_ (Piece.set?_eq_none (by simp [Piece.property?, list]))
      ⟨?_, reads⟩
    · cases text <;> exact ⟨nofun, nofun⟩
    · cases text <;> rfl
  · refine assignProperty_plans sound there has (fun clean => ?_) _
    obtain ⟨other, found⟩ := aims clean
    simp [Piece.property?, other, found]
  · split
    · rename_i plain
      simp only [Bool.and_eq_true, Option.isNone_iff_eq_none] at plain
      exact plans_pure.mpr fun _ _ => .one (.text text) ⟨rfl, plain⟩ trivial
    · rename_i collects
      refine plans_pure.mpr fun clean _ => .skip ?_
      obtain ⟨_, noDefault⟩ := (aims clean).2 rfl
      refine ⟨noDefault, fun none_there => collects ?_⟩
      simp [noDefault, none_there]

theorem putEntries_plans (there : d.There s) (element : Node)
    : Plans c underway (putEntries d p attributes) s
        (Recorded c (attributes.map (⟨.inside element, .attr ·⟩)) d) := by
  refine .record there fun d a _ t _ => ?_
  split
  · rename_i malformed
    exact plans_pure.mpr fun _ _ => .skip malformed
  · rename_i value found
    have has : Piece.value? ⟨.inside element, .attr a⟩ = some value := found
    refine plans_put sound has fun source u _ gives reads => ?_
    exact recorded_addStep gives ⟨nofun, nofun⟩ rfl ⟨⟨rfl, rfl⟩, reads⟩

/-! ### Attributes -/

/-- An attribute that is a handler fills a slot of the draft, unless it is blank. -/
theorem resolveHandler_plans (plain : a.owner = none)
    (free : d.descriptor.properties.get? a.name = none) (name : isHandlerName a.name = true)
    : Plans c underway (resolveHandler d a) s fun found t =>
        match found with
        | some d' => Recorded c [⟨.own, .attr a⟩] d d' t
        | none => isHandler d.descriptor a = false := by
  have added (kind : StepKind) (target : String) (occasion : Occasion)
      (handler : isHandler d.descriptor a = true) (other : kind ≠ .set)
      (slot : kind = .handler → target ∈ d.descriptor.events.keys)
      (fits : ∀ source : Source,
        source.IsHandler → Step.Shaped ⟨a.pos, kind, target, source, none, none⟩)
      : Plans c underway
          (do
            let d' ← (do
              match ← handlerSource a occasion with
              | some source => pure (d.addHandler ⟨a.pos, kind, target, source, none, none⟩)
              | none => pure d)
            pure (some d'))
          s fun found t =>
            match found with
            | some d' => Recorded c [⟨.own, .attr a⟩] d d' t
            | none => isHandler d.descriptor a = false := by
    rw [bind_assoc]
    refine (handlerSource_plans sound).bind fun found t after => ?_
    cases found with
    | none =>
      refine plans_pure.mpr fun clean _ => ?_
      exact .skip (.inr ⟨handler, (after clean).holds⟩)
    | some source =>
      refine plans_pure.mpr fun clean _ => ?_
      obtain ⟨handles, reads, is⟩ := (after clean).holds
      exact .one (.handler _) ⟨.handler rfl handles,
        Piece.set?_eq_none (by simp [Piece.property?, free]), other, slot⟩ ⟨fits source is, reads t⟩
  unfold resolveHandler
  dsimp only
  split
  · rename_i event
    exact added _ _ _ (by simp [isHandler, plain, free, name, event]) nofun
      (fun _ => Table.mem_keys_of_mem (Table.mem_of_get? event)) fun _ handler => ⟨rfl, handler⟩
  rename_i noEvent
  split
  · rename_i noChange
    exact plans_pure.mpr fun _ _ => by simp [isHandler, noEvent, noChange]
  rename_i property change
  have handler : isHandler d.descriptor a = true := by
    simp [isHandler, plain, free, name, change]
  split
  · exact added _ _ _ handler nofun nofun fun _ handler => ⟨rfl, handler⟩
  split
  · exact added _ _ _ handler nofun nofun fun _ handler => ⟨rfl, handler⟩
  · exact plans_refuse rfl

/-- An argument of a constructor is kept for it, and an entry of a map is put. -/
theorem resolveArgument_plans (has : a.value = some value) (plain : a.owner = none)
    (free : d.descriptor.properties.get? a.name = none)
    : Plans c underway (resolveArgument d a value) s fun d' t =>
        isHandler d.descriptor a = false → Recorded c [⟨.own, .attr a⟩] d d' t := by
  have own : Piece.value? ⟨.own, .attr a⟩ = some value := has
  unfold resolveArgument
  split
  · rename_i type found
    split
    · exact plans_refuse rfl
    · refine plans_put sound own fun source t _ gives reads other => ?_
      refine .one (.hold a.name source ⟨a.pos, true⟩) ⟨gives, ?_⟩ reads
      simp [Piece.kept?, Piece.single?, Piece.property?, isArgument, plain, free, other, found]
  · split
    · refine plans_put sound own fun source t _ gives reads _ => ?_
      exact recorded_addStep gives ⟨nofun, nofun⟩
        (Piece.set?_eq_none (by simp [Piece.property?, free])) ⟨⟨rfl, rfl⟩, reads⟩
    · exact plans_refuse rfl

theorem resolveAttribute_plans (there : d.There s)
    : Plans c underway (resolveAttribute d a) s (Recorded c [⟨.own, .attr a⟩] d) := by
  unfold resolveAttribute
  split
  · rename_i malformed
    exact plans_pure.mpr fun _ _ => .skip (.inl malformed)
  rename_i value has
  have own : Piece.value? ⟨.own, .attr a⟩ = some value := has
  split
  · rename_i owner given
    exact attach_plans sound _ own (by simp [Piece.property?, given])
  rename_i noOwner
  have plain : a.owner = none := Option.eq_none_iff_forall_ne_some.mpr noOwner
  split
  · rename_i property found
    exact assignProperty_plans sound there own (fun _ => by simp [Piece.property?, plain, found]) _
  rename_i free
  split
  · rename_i name
    refine (resolveHandler_plans sound plain free name).bind fun handled t after => ?_
    cases handled with
    | none =>
      refine (resolveArgument_plans sound has plain free).imp fun d' u _ taken => ?_
      exact taken.holds (after taken.clean).holds
    | some d' => exact plans_pure.mpr fun clean _ => (after clean).holds
  · rename_i name
    refine (resolveArgument_plans sound has plain free).imp fun d' t _ taken => taken.holds ?_
    simp [isHandler, name]

theorem resolveAttributes_plans (there : d.There s)
    : Plans c underway (attributes.foldlM resolveAttribute d) s
        (Recorded c (attributes.map (⟨.own, .attr ·⟩)) d) :=
  .record there fun _ _ _ _ there => resolveAttribute_plans sound there

end

end Fxml.Planning
