import Fxml.Proofs.Document.Ranks
import Fxml.Proofs.Planning.Consistency

/-! Which nodes a plan without errors builds. A node that stands for an object is built exactly when
it is placed and grounded: it then has one element, listed once in the construction order.
-/

open List Fxml.Table

namespace Fxml.Planning

/-! ### Ids without a problem -/

/-- Without an error the id of a node is new, and what was registered stays. -/
theorem register_clean {r r' : Registration} {node : Node} (h : register r node = .ok r')
    (clean : r'.diagnostics.ok = true)
    : r.diagnostics.ok = true
      ∧ (∀ id entry, r.registry.get? id = some entry → r'.registry.get? id = some entry)
      ∧ ∀ id, node.id? = some id → ∃ var, r'.registry.get? id = some ⟨node, var⟩ := by
  cases registers_of_ok h with
  | unnamed nameless =>
    exact ⟨clean, fun _ _ => id, fun id declares => nomatch nameless ▸ declares⟩
  | refused _ _ grave =>
    simp [Diagnostics.report, Diagnostics.add, Diagnostics.ok, Diagnostic.isError, grave] at clean
  | @accepted id var namer declares absent =>
    refine ⟨clean, fun other entry found => ?_, fun other declares' => ⟨var, ?_⟩⟩
    · rw [get?_put, if_neg, found]
      rintro rfl
      rw [absent] at found
      cases found
    · rw [declares] at declares'
      cases declares'
      rw [get?_put, if_pos rfl]

theorem foldlM_register_clean {nodes : List Node} {r r' : Registration}
    (run : nodes.foldlM register r = .ok r') (clean : r'.diagnostics.ok = true)
    : r.diagnostics.ok = true
      ∧ ∀ node ∈ nodes, ∀ id, node.id? = some id → ∃ var, r'.registry.get? id = some ⟨node, var⟩ := by
  refine of_foldlM_ok (motive := fun done r' => r'.diagnostics.ok = true → r.diagnostics.ok = true
    ∧ ∀ node ∈ done, ∀ id, node.id? = some id → ∃ var, r'.registry.get? id = some ⟨node, var⟩)
    (fun {done _ node _} h step clean => ?_) [] (fun clean => ⟨clean, nofun⟩) run clean
  obtain ⟨middle, kept, declared⟩ := register_clean step clean
  obtain ⟨start, before⟩ := h middle
  refine ⟨start, fun other member id declares => ?_⟩
  rcases mem_append.mp member with old | new
  · obtain ⟨var, found⟩ := before other old id declares
    exact ⟨var, kept id _ found⟩
  · cases mem_singleton.mp new
    exact declared id declares

end Fxml.Planning

namespace Fxml

open Planning

theorem Document.ids_declared {document : Document} {settings : PlanSettings}
    {module className : String} {diagnostics reports : Diagnostics} {known known' : IncludeCache}
    {plan : Plan} (ranks : (document.root.walk.map Node.order).Nodup)
    (run : (document.plan settings module className diagnostics).run.run known
      = (.ok (some plan, reports), known'))
    (clean : reports.ok = true) {node : Node} (member : node ∈ document.root.walk) {id : String}
    (declares : node.id? = some id)
    : ∃ var, (document.ids settings.reserved).get? id = some ⟨node, var⟩ := by
  obtain ⟨c, r, ds, s, registration, before, rfl, _, registry, yields, rfl⟩ :=
    Document.plan_yields run
  have registered := (registered_start _ _).run ranks registration
  rw [nil_append] at registered
  obtain ⟨sound, start⟩ := registered.start registry ranks ds
  have after := planDocument_plans sound module className (fun _ => start) _ _ yields clean
  obtain ⟨_, declared⟩ := foldlM_register_clean registration (before after.clean)
  rw [Document.ids_eq registration]
  exact declared node member id declares

/-! ### The elements of a node -/

/-- The elements with the place and rank of a node. -/
def Plan.elementsOf (plan : Plan) (node : Node) : List Element :=
  plan.elements.values.filter fun e => e.pos = node.pos ∧ e.order = node.order

/-- A node has one element, which is listed once, and its id leads there. -/
def Plan.Builds (plan : Plan) (node : Node) : Prop :=
  ∃ e, plan.elementsOf node = [e]
    ∧ plan.order.count e.var = 1
    ∧ ∀ id, node.id? = some id → plan.registry.get? id = some e.var

/-- Nothing in a plan comes from a node. -/
def Plan.Omits (plan : Plan) (node : Node) : Prop :=
  plan.elementsOf node = [] ∧ ∀ id, node.id? = some id → plan.registry.get? id = none

theorem Plan.Builds.not_omits {plan : Plan} {node : Node} (builds : plan.Builds node)
    : ¬plan.Omits node := by
  rintro ⟨none_there, _⟩
  obtain ⟨e, only, _⟩ := builds
  rw [none_there] at only
  cases only

namespace Planning.Made

variable {c : Context} {plan : Plan} {s : State} {node : Node} {e e' : Element}

section

variable (made : Made c plan s)
include made

theorem mem_values : e ∈ plan.elements.values ↔ (e.var, e) ∈ s.elements := by
  rw [made.elements]
  constructor
  · intro member
    obtain ⟨⟨var, _⟩, there, rfl⟩ := mem_map.mp member
    rw [made.own there]
    exact there
  · exact fun there => mem_map.mpr ⟨_, there, rfl⟩

/-- Elements are told apart by their ranks. -/
theorem eq_of_order (here : (e.var, e) ∈ s.elements) (there : (e'.var, e') ∈ s.elements)
    (same : e.order = e'.order)
    : e = e' := by
  obtain ⟨_, node, _, _, named, _, order, _⟩ := made.inv.standing _ e here
  obtain ⟨_, node', _, _, named', _, order', _⟩ := made.inv.standing _ e' there
  have rank : node.order = node'.order := order.symm.trans (same.trans order')
  have pair := inj_on_of_nodup_map made.inv.named.ranked named named' rank
  have var : e.var = e'.var := (Prod.mk.inj pair).2
  rw [var] at here
  have found := made.get?_of_mem here
  rw [made.get?_of_mem there] at found
  exact (Option.some.inj found).symm

/-- An element belongs to the node of its rank, which is placed and grounded. -/
theorem stands (sound : c.Sound) (there : (e.var, e) ∈ s.elements)
    (member : node ∈ c.document.root.walk) (order : e.order = node.order)
    : StandsFor c s e node := by
  obtain ⟨_, other, stands⟩ := made.inv.standing _ e there
  have rank : other.order = node.order := stands.2.2.2.2.1.symm.trans order
  exact sound.eq_of_order stands.1.mem_walk member rank ▸ stands

theorem exists_element (sound : c.Sound) (placed : c.Placed node) (grounded : c.Grounded node)
    : ∃ e, (e.var, e) ∈ s.elements ∧ StandsFor c s e node := by
  obtain ⟨var, named, known⟩ := made.covered node placed grounded
  obtain ⟨e, there⟩ := mem_keys.mp known
  obtain ⟨rfl, other, stands⟩ := made.inv.standing var e there
  have pair := inj_on_of_nodup_map made.inv.named.unique named stands.2.2.1 rfl
  have only := sound.eq_of_order placed.mem_walk stands.1.mem_walk (Prod.mk.inj pair).1
  exact ⟨e, there, only ▸ stands⟩

/-- Every element is listed once. -/
theorem count_order (there : (e.var, e) ∈ s.elements)
    : plan.order.count e.var = 1 := by
  have once : plan.order.Nodup := made.ordered.perm.nodup_iff.mpr made.inv.unique
  have listed : e.var ∈ plan.order := made.ordered.perm.mem_iff.mpr (mem_keys_of_mem there)
  exact count_eq_one_of_mem once listed

/-- A list of elements of different ranks holds one element of a rank. -/
theorem elementsOf_eq (there : (e.var, e) ∈ s.elements) (stands : StandsFor c s e node)
    : plan.elementsOf node = [e] := by
  have unique : plan.elements.values.Nodup := by
    have keys : plan.elements.values.map Element.var = plan.elements.keys := by
      unfold values Table.keys
      rw [map_map]
      refine map_congr_left fun entry member => ?_
      exact made.own (made.elements ▸ member)
    refine Nodup.of_map Element.var ?_
    rw [keys, made.elements]
    exact made.inv.unique
  have mem_iff (other : Element) : other ∈ plan.elementsOf node ↔ other ∈ [e] := by
    simp only [Plan.elementsOf, mem_filter, made.mem_values, decide_eq_true_eq, mem_singleton]
    obtain ⟨_, _, _, pos, order, _⟩ := stands
    constructor
    · rintro ⟨listed, _, rank⟩
      exact made.eq_of_order listed there (rank.trans order.symm)
    · rintro rfl
      exact ⟨there, pos, order⟩
  have perm := (perm_ext_iff_of_nodup (unique.filter _) (nodup_singleton e)).mpr mem_iff
  exact perm_singleton.mp perm

end

end Planning.Made

/-- In a plan without errors each node that stands for an object is built if it is placed and
grounded and omitted if it is not, and every element comes from such a node.
-/
theorem Document.node_built_iff {src path : String} {document : Document}
    {settings : PlanSettings} {module className : String} {diagnostics reports : Diagnostics}
    {known known' : IncludeCache} {plan : Plan}
    (parsed : Document.read src path = .ok document)
    (run : (document.plan settings module className diagnostics).run.run known
      = (.ok (some plan, reports), known'))
    (clean : reports.ok = true)
    : (∀ node ∈ document.root.walk,
        IsElement node
        → (plan.Builds node
            ↔ node ∈ document.root.placed .object ∧ node.Grounded (document.ids settings.reserved))
          ∧ (plan.Omits node ↔ ¬plan.Builds node))
      ∧ ∀ e ∈ plan.elements.values, ∃ node ∈ document.root.walk,
          IsElement node ∧ plan.elementsOf node = [e] := by
  have ranks := nodup_ranks parsed
  have declared {node : Node} (member : node ∈ document.root.walk) {id : String}
      (declares : node.id? = some id) :=
    Document.ids_declared ranks run clean member declares
  obtain ⟨c, s, rfl, types, registry, sound, made⟩ := Document.made_of_plan ranks run clean
  rw [← registry] at declared ⊢
  have builds {node : Node} (placed : c.Placed node) (grounded : c.Grounded node)
      : plan.Builds node := by
    obtain ⟨e, there, stands⟩ := made.exists_element sound placed grounded
    refine ⟨e, made.elementsOf_eq there stands, made.count_order there, fun id declares => ?_⟩
    obtain ⟨var, found⟩ := declared placed.mem_walk declares
    have own := made.inv.declared id _ found
    have pair := inj_on_of_nodup_map made.inv.named.ranked own stands.2.2.1 rfl
    rw [made.registry_iff sound, Context.varOf, found]
    exact ⟨congrArg some (Prod.mk.inj pair).2, mem_keys_of_mem there⟩
  have omits {node : Node} (member : node ∈ c.document.root.walk)
      (away : ¬(c.Placed node ∧ c.Grounded node))
      : plan.Omits node := by
    constructor
    · refine filter_eq_nil_iff.mpr fun e listed same => away ?_
      have there := made.mem_values.mp listed
      have stands := made.stands sound there member (of_decide_eq_true same).2
      exact ⟨stands.1, stands.2.1⟩
    · intro id declares
      obtain ⟨entryVar, found⟩ := declared member declares
      by_contra some_there
      obtain ⟨var, leads⟩ := Option.ne_none_iff_exists'.mp some_there
      rw [made.registry_iff sound, Context.varOf, found] at leads
      obtain ⟨same, known⟩ := leads
      cases same
      exact away ((made.entry_planned_iff sound found).mp known)
  refine ⟨fun node member _ => ?_, fun e listed => ?_⟩
  · by_cases taken : c.Placed node ∧ c.Grounded node
    · have built := builds taken.1 taken.2
      exact ⟨⟨fun _ => taken, fun _ => built⟩,
        fun omitted => (built.not_omits omitted).elim, fun notBuilt => (notBuilt built).elim⟩
    · have omitted := omits member taken
      refine ⟨⟨fun built => (built.not_omits omitted).elim, fun h => (taken h).elim⟩,
        fun _ built => built.not_omits omitted, fun _ => omitted⟩
  · have there := made.mem_values.mp listed
    obtain ⟨_, node, stands⟩ := made.inv.standing _ e there
    refine ⟨node, stands.1.mem_walk, ?_, made.elementsOf_eq there stands⟩
    obtain ⟨_, grounded, _⟩ := stands
    cases grounded <;> trivial

/-- A box in definitions within definitions. -/
def buriedBox : String :=
  "<?import ui.*?><Box xmlns:fx=\"http://javafx.com/fxml\">"
    ++ "<fx:define><fx:define><Box fx:id=\"a\"/></fx:define></fx:define></Box>"

/-- Definitions within definitions are not placed: the box and its id are left out without a report.
-/
theorem Document.buriedBox_omitted
    : ∃ document plan reports known node,
        Document.read buriedBox "" = .ok document
        ∧ (document.plan { types := boxTypes } "" "" { file := "" }).run.run []
          = (.ok (some plan, reports), known)
        ∧ reports.ok = true
        ∧ node ∈ document.root.walk
        ∧ IsElement node
        ∧ node.id? = some "a"
        ∧ plan.Omits node := by
  have planned : (cleanPlan? boxTypes buriedBox).isSome = true := by decide +kernel
  have ranks : (Document.read buriedBox "").toOption.map (fun document =>
      ((document.root.walk.filter (·.id? == some "a")).map Node.order,
        (document.root.placed .object).map Node.order)) = some ([1], [4]) := by
    decide +kernel
  obtain ⟨plan, found⟩ := Option.isSome_iff_exists.mp planned
  obtain ⟨document, reports, known, parsed, run, clean⟩ := exists_of_cleanPlan? found
  rw [parsed] at ranks
  obtain ⟨declaring, placed⟩ := Prod.mk.inj (Option.some.inj ranks)
  obtain ⟨node, member, order⟩ := mem_map.mp (declaring ▸ mem_singleton_self 1)
  obtain ⟨member, declares⟩ := mem_filter.mp member
  have declares : node.id? = some "a" := by simpa using declares
  have element := isElement_of_id? declares
  refine ⟨document, plan, reports, known, node, parsed, run, clean, member, element, declares, ?_⟩
  obtain ⟨built, omitted⟩ := (Document.node_built_iff parsed run clean).1 node member element
  refine omitted.mpr fun builds => ?_
  have rank := mem_map_of_mem (f := Node.order) (built.mp builds).1
  rw [placed, order] at rank
  simp at rank

end Fxml
