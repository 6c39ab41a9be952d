import Mathlib
import Fxml.Proofs.Planning.Elements

/-! Parts of planning that neither give out names nor put elements, in runs with and without errors.
A draft stays that of its element.
-/

open Std.Do

set_option mvcgen.warning false

namespace Fxml.Planning

variable {α : Type} {c : Context} {s : State}

/-! ### Every run -/

/-- What is stated of planning speaks about the context, the state, and the known documents. -/
abbrev Shape : PostShape := .arg Context (.arg State (.except Crash (.arg IncludeCache .pure)))

/-- A statement about the context and the state. -/
abbrev PreIn (pre : Context → State → Prop) : Assertion Shape := fun c s _ => ⌜pre c s⌝

abbrev Pre (pre : State → Prop) : Assertion Shape := PreIn fun _ => pre

/-- A statement about the result and the state; nothing is said of crashes. -/
abbrev Post (post : α → State → Prop) : PostCond α Shape :=
  ⟨fun a _ s _ => ⌜post a s⌝, fun _ _ => ⌜True⌝, ()⟩

theorem wp_apply (x : Planning α) (Q : PostCond α Shape) (known : IncludeCache)
    : wp⟦x⟧ Q c s known = match ((x.run c).run s).run.run known with
      | (.ok (a, t), known') => Q.1 a c t known'
      | (.error crash, known') => Q.2.1 crash known' := by
  rcases run : ((x.run c).run s).run.run known with ⟨_ | ⟨a, t⟩, known'⟩
  all_goals
    simp [WP.wp, run]
    rfl

/-- A triple is about every run, with and without errors. -/
theorem triple_iff_yields {x : Planning α} {pre : Context → State → Prop} {post : α → State → Prop}
    : ⦃PreIn pre⦄ x ⦃Post post⦄ ↔ ∀ c s a t, pre c s → Yields c x s a t → post a t := by
  constructor
  · rintro h c s a t start ⟨known, known', run⟩
    have holds := h c s known start
    rw [wp_apply, run] at holds
    exact holds
  · intro h c s known start
    rw [wp_apply]
    rcases run : ((x.run c).run s).run.run known with ⟨_ | ⟨a, t⟩, known'⟩
    · trivial
    · exact h c s a t start ⟨known, known', run⟩

/-! ### Names and elements that stay -/

/-- The part of a state that names and elements are in. -/
structure Core where
  namer : Namer
  vars : List (Nat × String)
  elements : Table Element

def State.core (s : State) : Core := ⟨s.namer, s.vars, s.elements⟩

abbrev At (core : Core) : Assertion Shape := Pre fun s => s.core = core

/-- Names and elements stay, and the result is as stated. -/
abbrev Still (core : Core) (post : α → Prop) : PostCond α Shape :=
  Post fun a s => s.core = core ∧ post a

abbrev Stays (core : Core) : PostCond α Shape := Still core fun _ => True

/-- What is found, if anything, is as stated. -/
@[grind] def Brings (p : α → Prop) (found : Option α) : Prop := ∀ a, found = some a → p a

@[simp] theorem brings_none {p : α → Prop} : Brings p none := nofun

@[simp] theorem brings_some {p : α → Prop} {a : α} : Brings p (some a) ↔ p a := by
  simp [Brings]

/-- A look-up of another document may end in any way. -/
theorem lookup_spec (m : Lookup α) {Q : PostCond α (.except Crash (.arg IncludeCache .pure))}
    : ⦃fun _ => ⌜(∀ a known, (Q.1 a known).down) ∧ ∀ crash known, (Q.2.1 crash known).down⌝⦄
      m
      ⦃Q⦄ := by
  rintro known ⟨ends, crashes⟩
  rcases run : m.run.run known with ⟨_ | a, known'⟩
  · simp [WP.wp, run]
    exact crashes _ _
  · simp [WP.wp, run]
    exact ends _ _

section

variable {core : Core} {pos : Position} {type target tag name ownerTag : String} {node : Node}
  {source : Source} {text value : Value} {property p : PropertyInfo} {occasion : Occasion}
  {a : Attribute}

@[spec] theorem report_still {problem : Problem} : ⦃At core⦄ report problem pos ⦃Stays core⦄ := by
  mvcgen [report]

@[spec] theorem addLink_still {link : Link} : ⦃At core⦄ addLink link ⦃Stays core⦄ := by
  mvcgen [addLink]

@[spec] theorem entry?_still {id : String} : ⦃At core⦄ entry? id ⦃Stays core⦄ := by
  mvcgen [ entry?]

@[spec] theorem describe_still : ⦃At core⦄ describe type ⦃Stays core⦄ := by
  mvcgen [describe]

@[spec] theorem isAssignable_still : ⦃At core⦄ isAssignable target type ⦃Stays core⦄ := by
  mvcgen [isAssignable]

/-! ### Types -/

@[spec] theorem checkAssignable_still {type : Option String}
    : ⦃At core⦄ checkAssignable target type pos ⦃Stays core⦄ := by
  mvcgen [checkAssignable] <;> simp_all

@[spec] theorem resolveTag_still : ⦃At core⦄ resolveTag tag pos ⦃Stays core⦄ := by
  mvcgen [resolveTag] <;> simp_all

@[spec] theorem includeTarget_still {source : String}
    : ⦃At core⦄ includeTarget node source ⦃Stays core⦄ := by
  have noted (target : Option IncludeTarget)
      : ⦃At core⦄ (do
          modify fun s => { s with includes := (node.order, target) :: s.includes }
          return target : Planning _) ⦃Stays core⦄ := by
    mvcgen
  have failed (fault : IncludeFault)
      : ⦃At core⦄ (do
          report (.failedInclude fault) node.pos
          modify fun s => { s with includes := (node.order, none) :: s.includes }
          return none : Planning (Option IncludeTarget)) ⦃Stays core⦄ := by
    mvcgen
    simp_all +zetaDelta [State.core]
  mvcgen [includeTarget, lookup_spec] <;> simp_all +zetaDelta [State.core]
  rintro (fault | target) known
  · exact failed fault _ _ _ ‹_›
  · exact noted (some target) _ _ _ ‹_›

@[spec] theorem objectType_still {origin : Origin}
    : ⦃At core⦄ objectType origin tag pos ⦃Stays core⦄ := by
  mvcgen [objectType] <;> simp_all

@[spec] theorem constantType_still : ⦃At core⦄ constantType tag name pos ⦃Stays core⦄ := by
  mvcgen [constantType] <;> simp_all

@[spec] theorem typeWithin_still {depth : Nat} : ⦃At core⦄ typeWithin depth node ⦃Stays core⦄ := by
  induction depth generalizing node core with
  | zero => mvcgen [typeWithin]
  | succ depth ih => mvcgen [typeWithin, noteType, ih] <;> simp_all +zetaDelta [State.core]

@[spec] theorem typeOf_still : ⦃At core⦄ typeOf node ⦃Stays core⦄ := by
  mvcgen [typeOf]

@[spec] theorem staticType_still {e : Expr} : ⦃At core⦄ staticType e ⦃Stays core⦄ := by
  fun_induction staticType e generalizing core <;> mvcgen [*] <;> simp_all

@[spec] theorem checkReferences_still {e : Expr} : ⦃At core⦄ checkReferences e ⦃Stays core⦄ := by
  mvcgen [checkReferences] invariants
  · Post fun _ s => s.core = core
  all_goals simp_all

@[spec] theorem checkStaticType_still {e : Expr}
    : ⦃At core⦄ checkStaticType target e pos ⦃Stays core⦄ := by
  mvcgen [checkStaticType] <;> simp_all

/-! ### Values -/

@[spec] theorem expressionSource_still {e : Expr}
    : ⦃At core⦄ expressionSource e type pos ⦃Stays core⦄ := by
  mvcgen [expressionSource] <;> simp_all

@[spec] theorem textSource_still {text : String} {textPos : Position}
    : ⦃At core⦄ textSource text type textPos pos ⦃Stays core⦄ := by
  mvcgen [textSource]
  simp_all

@[spec] theorem valueSource_still : ⦃At core⦄ valueSource value type pos ⦃Stays core⦄ := by
  mvcgen [valueSource] <;> simp_all

variable {e : Element} {d : Draft}

@[simp, grind =] theorem element_addStep (d : Draft) (step : Step)
    : (d.addStep step).element = d.element :=
  rfl

@[simp] theorem element_addHandler (d : Draft) (step : Step)
    : (d.addHandler step).element = d.element :=
  rfl

@[simp] theorem element_hold (d : Draft) (name : String) (source : Source) (site : Site)
    : (d.hold name source site).element = d.element :=
  rfl

@[simp] theorem element_store (d : Draft) (property : PropertyInfo) (source : Source) (site : Site)
    : (d.store property source site).element = d.element := by
  unfold Draft.store
  split <;> rfl

@[spec] theorem bindProperty_still {e : Expr}
    : ⦃At core⦄ bindProperty d property e pos ⦃Stays core⦄ := by
  mvcgen [bindProperty] <;> simp_all +zetaDelta [State.core]

@[spec] theorem assignProperty_still {site : Site}
    : ⦃At core⦄ assignProperty d property value site
      ⦃Still core fun d' => d'.element = d.element⦄ := by
  mvcgen [assignProperty] <;> simp_all

@[spec] theorem attachedType_still : ⦃At core⦄ attachedType ownerTag name pos ⦃Stays core⦄ := by
  mvcgen [attachedType] <;> simp_all

@[spec] theorem attach_still
    : ⦃At core⦄ attach d ownerTag name value pos ⦃Still core fun d' => d'.element = d.element⦄ := by
  mvcgen [attach] <;> simp_all

/-! ### Attributes -/

@[spec] theorem methodSource_still : ⦃At core⦄ methodSource name pos occasion ⦃Stays core⦄ := by
  mvcgen [methodSource] <;> simp_all

@[spec] theorem handlerSource_still : ⦃At core⦄ handlerSource a occasion ⦃Stays core⦄ := by
  mvcgen [handlerSource]
  simp_all +zetaDelta [State.core]

@[spec] theorem resolveHandler_still
    : ⦃At core⦄ resolveHandler d a ⦃Still core (Brings fun d' => d'.element = d.element)⦄ := by
  mvcgen [resolveHandler] <;> simp_all

@[spec] theorem resolveArgument_still
    : ⦃At core⦄ resolveArgument d a value ⦃Still core fun d' => d'.element = d.element⦄ := by
  mvcgen [resolveArgument] <;> simp_all

@[spec] theorem resolveAttribute_still
    : ⦃At core⦄ resolveAttribute d a ⦃Still core fun d' => d'.element = d.element⦄ := by
  mvcgen [resolveAttribute] <;> simp_all

/-! ### Content -/

@[spec] theorem contentTarget_still {d : TypeDescriptor} {values : List Node} {hasText : Bool}
    : ⦃At core⦄ contentTarget d pos values hasText ⦃Stays core⦄ := by
  mvcgen [contentTarget] <;> simp_all

@[spec] theorem putChild_still {type : Option String}
    : ⦃At core⦄ putChild d p pos source type ⦃Still core fun d' => d'.element = d.element⦄ := by
  mvcgen [putChild] <;> simp_all

@[spec] theorem putContent_still {target : ContentTarget} {type : Option String}
    : ⦃At core⦄ putContent d target pos source type
      ⦃Still core fun d' => d'.element = d.element⦄ := by
  mvcgen [putContent]
  simp_all

@[spec] theorem putText_still {target : ContentTarget}
    : ⦃At core⦄ putText d target text ⦃Still core fun d' => d'.element = d.element⦄ := by
  mvcgen [putText] <;> simp_all

@[spec] theorem putEntries_still {attributes : List Attribute}
    : ⦃At core⦄ putEntries d p attributes ⦃Still core fun d' => d'.element = d.element⦄ := by
  mvcgen [putEntries] invariants
  · Post fun r s => s.core = core ∧ r.2.element = d.element
  all_goals simp_all

/-! ### Construction -/

/-- The rank and the variables of an element are those of another one. -/
@[grind] def Alike (e e' : Element) : Prop :=
  e'.var = e.var ∧ e'.order = e.order ∧ e'.builderVars = e.builderVars

@[spec] theorem rejectPending_still {reason : String}
    : ⦃At core⦄ rejectPending d reason ⦃Stays core⦄ := by
  mvcgen [rejectPending] invariants
  · Post fun _ s => s.core = core
  all_goals simp_all

@[spec] theorem useText_still
    : ⦃At core⦄ useText d text ⦃Still core (Brings fun d' => Alike d.element d'.element)⦄ := by
  mvcgen [useText] <;> simp_all [Alike, Element.builderVars]

@[spec] theorem useConstructor_still
    : ⦃At core⦄ useConstructor d ⦃Still core (Brings fun d' => Alike d.element d'.element)⦄ := by
  mvcgen [useConstructor] <;> simp_all [Alike, Element.builderVars, Draft.construct]

/-! ### Inclusions -/

@[spec] theorem checkMerged_still {target : IncludeTarget}
    : ⦃At core⦄ checkMerged node target ⦃Stays core⦄ := by
  mvcgen [checkMerged] invariants
  · Post fun _ s => s.core = core
  all_goals simp_all +zetaDelta [State.core]

@[simp, grind =] theorem var_dependOn (e : Element) (key : String)
    : (e.dependOn key).var = e.var := by
  unfold Element.dependOn
  split <;> rfl

@[simp, grind =] theorem order_dependOn (e : Element) (key : String)
    : (e.dependOn key).order = e.order := by
  unfold Element.dependOn
  split <;> rfl

@[simp, grind =] theorem builderVars_dependOn (e : Element) (key : String)
    : (e.dependOn key).builderVars = e.builderVars := by
  unfold Element.dependOn
  split <;> rfl

/-- The element gets its inclusion, and no other variable. -/
@[spec] theorem linkSubController_still {inclusion : Inclusion} {target : IncludeTarget}
    : ⦃At core⦄ linkSubController e inclusion target ⦃Still core fun e' =>
        e'.var = e.var ∧ e'.order = e.order
        ∧ e'.builderVars = e.builderVar.toList ++ [inclusion.builderVar]⦄ := by
  mvcgen [linkSubController] <;> simp_all
  all_goals rfl

end

end Fxml.Planning
