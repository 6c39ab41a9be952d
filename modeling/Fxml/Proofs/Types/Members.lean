import Fxml.Proofs.Table
import Fxml.Types.Introspection

/-! The members that a class has from the classes in its resolution order. -/

open List Fxml.Table

namespace Fxml.ClassWorld

variable {w : ClassWorld} {module : Option ModuleModel} {hints : Table TypeHint} {isEnum : Bool}
  {d : TypeDescriptor} {n type : String} {f : TypeDescriptor → TypeDescriptor} {α : Type}

/-! ### What is said of a name -/

inductive MemberKind where
  | property | event | attached | method | constant | factory
deriving DecidableEq

def MemberKind.Entry : MemberKind → Type
  | property => Option PropertyInfo
  | method => List Signature
  | event | attached | constant | factory => String

/-- What a descriptor says of a name as a member of a kind. Of the name of an event it also says that
it is no property, unless there is one.
-/
def said (n : String) (d : TypeDescriptor) : (kind : MemberKind) → Option kind.Entry
  | .property => ((d.properties.get? n).map some).or ((d.events.get? n).map fun _ => none)
  | .event => d.events.get? n
  | .attached => d.staticProperties.get? n
  | .method => d.methods.get? n
  | .constant => d.constants.get? n
  | .factory => d.factories.get? n

/-- A change of descriptors says the same whatever was there, over what was said before. -/
def Layers (f : TypeDescriptor → TypeDescriptor) : Prop :=
  ∀ (d : TypeDescriptor) type n kind,
    said n (f d) kind = (said n (f (.blank type)) kind).or (said n d kind)

theorem Layers.comp {g : TypeDescriptor → TypeDescriptor} (first : Layers f) (second : Layers g)
    : Layers fun d => g (f d) := by
  intro d type n kind
  rw [second _ type, second (f (.blank type)) type, first d type, Option.or_assoc]

theorem Layers.foldl {step : TypeDescriptor → α → TypeDescriptor} (items : List α)
    (each : ∀ item, Layers (step · item))
    : Layers fun d => items.foldl step d := by
  induction items with
  | nil =>
    intro d type n kind
    cases kind <;> rfl
  | cons item rest ih => exact (each item).comp ih

/-! ### Members of one class -/

/-- What one member of a class does to a descriptor. -/
inductive Edits : (TypeDescriptor → TypeDescriptor) → Prop
  | nothing : Edits id
  | valueOf : Edits fun d => { d with valueOf := true }
  | property (name p) : Edits fun d => { d with properties := d.properties.put name p }
  | event (name type) : Edits fun d =>
      { d with events := d.events.put name type, properties := d.properties.erase name }
  | attached (name type) : Edits fun d => { d with staticProperties := d.staticProperties.put name type }
  | method (name overloads) : Edits fun d => { d with methods := d.methods.put name overloads }
  | constant (name type) : Edits fun d => { d with constants := d.constants.put name type }
  | factory (name type) : Edits fun d => { d with factories := d.factories.put name type }

theorem edits_addStatic (name : String) (params : List FunctionParam) (returns : TypeHint)
    (isStatic : Bool)
    : Edits fun d => w.addStatic module d name params returns isStatic := by
  unfold addStatic
  dsimp only
  split
  · exact .valueOf
  · split
    · exact .attached _ _
    · split
      · exact .factory _ _
      · exact .nothing

theorem edits_addMember (entry : String × ClassMember)
    : Edits fun d => w.addMember module hints isEnum d entry := by
  obtain ⟨name, member⟩ := entry
  unfold addMember
  dsimp only
  split
  · exact .nothing
  · cases member with
    | observable | observableList | property => exact .property _ _
    | event => exact .event _ _
    | staticMethod | classMethod => exact edits_addStatic _ _ _ _
    | method => exact .method _ _
    | constant =>
      dsimp only
      split
      · exact .constant _ _
      · exact .nothing
    | callable => exact .nothing

theorem get?_erase (t : Table α) (name : String)
    : (t.erase name).get? n = if n = name then none else t.get? n := by
  induction t with
  | nil => simp [erase, get?]
  | cons entry rest ih =>
    obtain ⟨key, value⟩ := entry
    unfold erase at ih ⊢
    by_cases same : key = name
    · simp_all [get?_cons]
    · rw [filter_cons_of_pos (by simpa using same), get?_cons, get?_cons, ih]
      split
      · simp_all
      · rfl

theorem get?_put_or (t : Table α) (name : String) (value : α)
    : (t.put name value).get? n = ((put [] name value).get? n).or (t.get? n) := by
  rw [get?_put, get?_put]
  split <;> rfl

theorem Edits.layers (edits : Edits f) : Layers f := by
  intro d type n kind
  cases edits with
  | nothing | valueOf => cases kind <;> rfl
  | property name p =>
    cases kind with
    | property =>
      simp only [said, get?_put]
      split
      · rfl
      · rfl
    | _ => rfl
  | event name type =>
    cases kind with
    | property =>
      simp only [said, get?_erase, get?_put]
      split
      · rfl
      · rfl
    | event => exact get?_put_or _ _ _
    | _ => rfl
  | attached name type => cases kind with
    | attached => exact get?_put_or _ _ _
    | _ => rfl
  | method name overloads => cases kind with
    | method => exact get?_put_or _ _ _
    | _ => rfl
  | constant name type => cases kind with
    | constant => exact get?_put_or _ _ _
    | _ => rfl
  | factory name type => cases kind with
    | factory => exact get?_put_or _ _ _
    | _ => rfl

/-! ### Members of a class and its ancestors -/

theorem layers_addClass (c : ClassInfo) : Layers fun d => w.addClass isEnum d c := by
  refine Layers.comp (Layers.foldl _ fun entry => ?_) (Layers.foldl _ fun entry => ?_)
  · exact (Edits.property _ _).layers
  · exact (edits_addMember entry).layers

theorem said_foldr (cs : List ClassInfo) (d : TypeDescriptor) (n type : String) (kind : MemberKind)
    : said n (cs.reverse.foldl (w.addClass isEnum) d) kind
      = (cs.findSome? fun c => said n (w.addClass isEnum (.blank type) c) kind).or (said n d kind) := by
  induction cs with
  | nil => rfl
  | cons c rest ih =>
    rw [reverse_cons, foldl_append, foldl_cons, foldl_nil,
      layers_addClass c _ type, ih, findSome?_cons]
    cases said n (w.addClass isEnum (.blank type) c) kind <;> rfl

/-- The classes in the resolution order of a class. -/
def ancestors (w : ClassWorld) (type : String) : List ClassInfo :=
  (w.orderOf type).filterMap w.classes.get?

/-- What the body of a class says on its own. -/
def body (w : ClassWorld) (type : String) (c : ClassInfo) : TypeDescriptor :=
  w.addClass ((w.orderOf type).contains "enum.Enum") (.blank type) c

/-- What a class has under a name as a member of a kind is what the first class says that says
something of it.
-/
theorem said_describeClass (w : ClassWorld) (type n : String) (kind : MemberKind)
    : said n (w.describeClass type) kind
      = (w.ancestors type).findSome? fun c => said n (w.body type c) kind := by
  have start (d : TypeDescriptor) (start : ∀ kind, said n d kind = none)
      : said n ((w.ancestors type).reverse.foldl
          (w.addClass ((w.orderOf type).contains "enum.Enum")) d) kind
        = (w.ancestors type).findSome? fun c => said n (w.body type c) kind := by
    rw [said_foldr _ d n type, start, Option.or_none]
    rfl
  unfold describeClass
  cases w.classes.get? type with
  | none => cases kind <;> exact start { TypeDescriptor.blank type with module := _, members := _ } fun kind => by cases kind <;> rfl
  | some c => cases kind <;> exact start { TypeDescriptor.blank type with module := _, members := _ } fun kind => by cases kind <;> rfl

/-- Whether what is said of a name gives a member: not that it is no property. -/
def MemberKind.gives : (kind : MemberKind) → kind.Entry → Bool
  | .property, found => found.isSome
  | _, _ => true

/-- The kinds of members that a descriptor has under a name. -/
def kinds (n : String) (d : TypeDescriptor) : List MemberKind :=
  [.property, .event, .attached, .method, .constant, .factory].filter fun kind =>
    (said n d kind).any kind.gives

/-- Introspected members. Of each kind a class has what the first class in its resolution order has
that has the name, where a property or event counts as either. A name has one kind if it has one in
all of these classes; each further kind that it has in one of them it keeps.
-/
theorem describeClass_members (w : ClassWorld) (type n : String)
    : (∀ kind, said n (w.describeClass type) kind
        = (w.ancestors type).findSome? fun c => said n (w.body type c) kind)
      ∧ ∀ kind, (∀ c ∈ w.ancestors type, kinds n (w.body type c) ⊆ [kind])
        → kinds n (w.describeClass type) ⊆ [kind] := by
  refine ⟨said_describeClass w type n, fun kind all other listed => ?_⟩
  obtain ⟨known, has⟩ := mem_filter.mp listed
  rw [said_describeClass, Option.any_eq_true] at has
  obtain ⟨entry, found, gives⟩ := has
  obtain ⟨c, member, here⟩ := exists_of_findSome?_eq_some found
  refine all c member (mem_filter.mpr ⟨known, ?_⟩)
  rw [here]
  exact gives

/-- A class makes a property of what its base has as an event. -/
def redeclaring : ClassWorld :=
  .ofModules [{ name := "ui", classes := [
    .mk "A" [] [] [("x", .event .missing)] [] none none none none none [],
    .mk "B" ["A"] [] [("x", .property .missing true true)] [] none none none none none []] }]

theorem describeClass_redeclaring
    : kinds "x" (redeclaring.describeClass "ui.A") ⊆ [.event]
      ∧ kinds "x" (redeclaring.describeClass "ui.B") = [.property, .event] := by
  refine ⟨(describeClass_members _ "ui.A" "x").2 .event (by decide +kernel), by decide +kernel⟩

end Fxml.ClassWorld
