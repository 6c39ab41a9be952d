import Fxml.Proofs.Planning.Naming
import Fxml.Proofs.Planning.Taking

/-! What stands inside an element, in a run without errors. The pieces of the content have their
effects on the draft, and the placed nodes in it get their elements.
-/

open List

namespace Fxml.Planning

variable {nodes children : List Node} {node element : Node} {d : Draft} {c : Context} {s t : State}
  {underway : List String} {pos : Position} {order : Nat} {name : String} {text : Option Value}
  {attributes : List Attribute} {place : Node.Place}

/-! ### Nodes with elements -/

/-- Every node of a list has an element, unless it is a copy of nothing. -/
def Covered (c : Context) (nodes : List Node) (s : State) : Prop :=
  ∀ node ∈ nodes, c.Grounded node → ∃ var, (node.order, var) ∈ s.vars ∧ var ∈ s.elements.keys

theorem Covered.mono (h : Covered c nodes s) (grows : Extends s t) : Covered c nodes t := by
  intro node member grounded
  obtain ⟨var, named, there⟩ := h node member grounded
  exact ⟨var, grows.vars named, grows.elements there⟩

theorem covered_nil : Covered c [] s := by simp [Covered]

theorem covered_append {more : List Node}
    : Covered c (nodes ++ more) s ↔ Covered c nodes s ∧ Covered c more s := by
  simp only [Covered, mem_append, or_imp, forall_and]

theorem covered_cons : Covered c (node :: nodes) s ↔ Covered c [node] s ∧ Covered c nodes s := by
  rw [← covered_append, singleton_append]

theorem covered_placedAll
    : Covered c (Node.placedAll place nodes) s
      ↔ ∀ node ∈ nodes, Covered c (node.placed place) s := by
  induction nodes with
  | nil => simp [Node.placedAll, covered_nil]
  | cons node rest ih => simp [Node.placedAll, covered_append, ih]

/-- What is placed in a list of nodes is placed in its items and in what stands beside them. -/
theorem Covered.of_items (items : Covered c (Node.placedAll place (nodes.filter isItem)) s)
    (others : Covered c (Node.placedAll place (nodes.filter fun node => !isItem node)) s)
    : Covered c (Node.placedAll place nodes) s := by
  refine covered_placedAll.mpr fun node member => ?_
  cases item : isItem node with
  | true => exact covered_placedAll.mp items node (mem_filter.mpr ⟨member, item⟩)
  | false =>
    exact covered_placedAll.mp others node (mem_filter.mpr ⟨member, by rw [item]; rfl⟩)

theorem placed_of_isItem (item : isItem node = true) (place place' : Node.Place)
    : node.placed place = node.placed place' := by
  cases node with
  | property | staticProperty | define => cases item
  | _ => rfl

theorem isValue_eq_isItem (node : Node) : isValue node = isItem node := by
  cases node <;> rfl

theorem placed_attached_of_not_isValue (other : isValue node = false)
    : node.placed .attached = [] := by
  cases node with
  | property | staticProperty | define => rfl
  | _ => cases other

/-- A node was planned: its element is in the plan, unless it is a copy of nothing, and the nodes
placed in it have theirs.
-/
structure Planned (c : Context) (node : Node) (found : Option Element) (s : State) : Prop where
  there : ∀ e, found = some e → (e.var, e) ∈ s.elements ∧ (node.order, e.var) ∈ s.vars
  missing : found = none → IsElement node → ¬c.Grounded node
  covered : Covered c (node.placed .definition) s

/-- What a node contributes is the element that it stands for, unless it is a copy of nothing. -/
structure Contributed (c : Context) (node : Node) (found : Option (Source × Option String))
    (s : State)
    : Prop where
  value
    : match found with
      | some (source, _) => ∃ var, source = .element node.pos var ∧ Standing c s node var
      | none => ¬c.Grounded node
  covered : Covered c (node.placed .definition) s

theorem Contributed.gives {source : Source} {type : Option String} {piece : Piece}
    (h : Contributed c node (some (source, type)) s) (is : piece.matter = .node node)
    : piece.Gives c.types (Standing c s) source ∧ Reads c s source := by
  obtain ⟨⟨var, rfl, standing⟩, _⟩ := h
  exact ⟨.node is standing, standing.known⟩

theorem contribute_plans (sound : c.Sound) {plan : Planning (Option Element)}
    (item : isItem node = true) (planned : Plans c underway plan s (Planned c node))
    : Plans c underway (contribute node plan) s (Contributed c node) := by
  have other (element : IsElement node)
      (own : ∀ var t, (node.order, var) ∈ t.vars ∧ var ∈ t.elements.keys → Standing c t node var)
      : Plans c underway
          (do return (← plan).map fun e => (.element node.pos e.var, some e.type)) s
          (Contributed c node) := by
    refine planned.bind fun found t after => plans_pure.mpr fun clean _ => ?_
    obtain ⟨there, missing, covered⟩ := (after clean).holds
    cases found with
    | none => exact ⟨missing rfl element, covered⟩
    | some e =>
      obtain ⟨there, named⟩ := there e rfl
      exact ⟨⟨e.var, rfl, own e.var t ⟨named, Table.mem_keys_of_mem there⟩⟩, covered⟩
  cases node with
  | reference pos order source =>
    rw [contribute, plans_entry?_bind]
    split
    · exact plans_refuse rfl
    · rename_i entry declared
      refine (entryType_plans sound declared).bind fun type t _ => plans_pure.mpr fun _ _ => ?_
      refine ⟨⟨entry.var, rfl, ?_⟩, covered_nil⟩
      simp [Standing, Context.varOf, declared]
  | object | constant | copy | inclusion => exact other trivial fun _ _ => id
  | property | staticProperty | define => cases item

/-! ### Property elements -/

/-- What stands for the text of a property element that has none may be passed over. -/
theorem recorded_blank (element : Node) (pos : Position) (alone : Bool)
    : Recorded c ((textMatter pos alone none).map (⟨.inside element, ·⟩)) d d s := by
  cases alone with
  | false => exact .nil
  | true => exact .skip trivial

/-- A draft goes on by the effects of some pieces, and some nodes have elements. -/
structure Filled (c : Context) (pieces : List Piece) (nodes : List Node) (d d' : Draft) (s : State)
    : Prop where
  recorded : Recorded c pieces d d' s
  covered : Covered c nodes s

theorem Filled.trans {pieces more : List Piece} {others : List Node} {d' d'' : Draft}
    (first : Filled c pieces nodes d d' s) (grows : Extends s t)
    (second : Filled c more others d' d'' t)
    : Filled c (pieces ++ more) (nodes ++ others) d d'' t :=
  ⟨(first.recorded.mono grows).trans second.recorded,
    covered_append.mpr ⟨first.covered.mono grows, second.covered⟩⟩

theorem putProperty_plans (sound : c.Sound) {p : PropertyInfo} {items : Planning Draft}
    (is : element = .property pos order name attributes children text)
    (there : d.There s)
    (found : d.descriptor.properties.get? name = some p)
    (filled : Plans c underway items s
      (Filled c ((children.filter isItem).map (⟨.inside element, .node ·⟩))
        (Node.placedAll .property (children.filter isItem)) d))
    : Plans c underway (putProperty d p pos children text items) s
        (Filled c (((children.filter isItem).map Matter.node
            ++ textMatter pos (children.filter isItem).isEmpty text).map (⟨.inside element, ·⟩))
          (Node.placedAll .property (children.filter isItem)) d) := by
  have assigned {d : Draft} {t : State} (piece : Piece) {value : Value} (site : Site)
      (slot : piece.slot = .inside element) (has : piece.value? = some value)
      (plain : ∀ a, piece.matter ≠ .attr a) (there : d.There t)
      (found : t.Clean → d.descriptor.properties.get? name = some p)
      : Plans c underway (assignProperty d p value site) t (Recorded c [piece] d) := by
    refine assignProperty_plans sound there has (fun clean => ?_) site
    obtain ⟨_, matter⟩ := piece
    cases slot
    cases matter with
    | attr a => exact (plain a rfl).elim
    | node | text | blank =>
      rw [is]
      exact found clean
  rw [map_append, map_map]
  unfold putProperty
  split
  · -- A list takes every item, and the text after them.
    refine filled.bind fun d' t after => ?_
    cases text with
    | none =>
      refine plans_pure.mpr fun clean _ => ?_
      obtain ⟨recorded, covered⟩ := (after clean).holds
      exact ⟨recorded.trans (recorded_blank _ pos _), covered⟩
    | some value =>
      refine (assigned ⟨.inside element, .text value⟩ _ rfl rfl nofun
        (there.after after fun filled => filled.recorded.same.1)
        fun clean => ?_).imp fun d'' u _ taken => ?_
      · rw [(after clean).holds.recorded.same.2]
        exact found
      · obtain ⟨recorded, covered⟩ := (after taken.clean).holds
        exact ⟨(recorded.mono taken.grows).trans taken.holds, covered.mono taken.grows⟩
  · -- Any other property takes one value: its only item, or the text where there is none.
    rename_i single
    split
    · rename_i none_there
      rw [none_there]
      cases text with
      | none =>
        exact (assigned ⟨.inside element, .blank pos⟩ _ rfl rfl nofun there fun _ => found).imp
          fun _ _ _ taken => ⟨taken.holds, covered_nil⟩
      | some value =>
        exact (assigned ⟨.inside element, .text value⟩ _ rfl rfl nofun there fun _ => found).imp
          fun _ _ _ taken => ⟨taken.holds, covered_nil⟩
    · rename_i item only
      have there : item ∈ children.filter isItem := only ▸ mem_singleton_self item
      obtain ⟨member, isIt⟩ := mem_filter.mp there
      refine filled.imp fun d' t _ after => ⟨after.holds.recorded.trans ?_, after.holds.covered⟩
      rw [only]
      cases text with
      | none => exact .nil
      | some value =>
        refine .idle fun piece listed => ?_
        cases mem_singleton.mp listed
        rw [is]
        refine ⟨any_eq_true.mpr ⟨item, member, isIt⟩, fun p' goes => ?_⟩
        have goes : d'.descriptor.properties.get? name = some p' := goes
        rw [after.holds.recorded.same.2, found] at goes
        cases goes
        simpa using single
    · exact plans_refuse rfl

theorem takeProperty_plans (sound : c.Sound) {inner : Planning Unit}
    {items : PropertyInfo → Planning Draft}
    (is : element = .property pos order name attributes children text)
    (there : d.There s)
    (others : Plans c underway inner s fun _ t =>
      Covered c (Node.placedAll .property (children.filter fun node => !isItem node)) t)
    (filled : ∀ p t, d.There t
      → d.descriptor.properties.get? name = some p
      → Plans c underway (items p) t
          (Filled c ((children.filter isItem).map (⟨.inside element, .node ·⟩))
            (Node.placedAll .property (children.filter isItem)) d))
    : Plans c underway (takeProperty d pos name attributes children text inner items) s
        (Filled c (childPieces element) (Node.placedAll .property children) d) := by
  have pieces : childPieces element
      = attributes.map (⟨.inside element, .attr ·⟩)
        ++ ((children.filter isItem).map Matter.node
            ++ textMatter pos (children.filter isItem).isEmpty text).map
          (⟨.inside element, ·⟩) := by
    rw [is, childPieces, append_assoc, map_append, map_map]
    rfl
  rw [pieces]
  unfold takeProperty
  split
  · exact plans_refuse rfl
  rename_i p found
  refine others.bind fun _ t after => ?_
  have there : d.There t := there.after after fun _ => rfl
  split
  · refine (putEntries_plans sound there element).bind fun d' u taken => ?_
    split
    · exact plans_refuse rfl
    · rename_i nothing
      refine plans_pure.mpr fun clean _ => ?_
      simp only [Bool.or_eq_true, not_or, any_eq_true, not_exists, not_and,
        Option.not_isSome_iff_eq_none] at nothing
      obtain ⟨noItems, rfl⟩ := nothing
      have noItems := filter_eq_nil_iff.mpr noItems
      refine ⟨(taken clean).holds.trans ?_, .of_items ?_ ?_⟩
      · rw [noItems]
        exact recorded_blank element pos true
      · rw [noItems]
        exact covered_nil
      · exact (after (taken clean).clean).holds.mono (taken clean).grows
  · refine (Plans.noRounds fun _ _ _ => ends_refuse rfl).bind fun _ u settled => ?_
    have there : d.There u := there.after settled fun _ => rfl
    refine (putProperty_plans sound is there found (filled p u there found)).imp ?_
    intro d' v _ put
    have before := settled put.clean
    have others := ((after before.clean).holds.mono before.grows).mono put.grows
    refine ⟨?_, put.holds.covered.of_items others⟩
    rw [before.holds.1]
    exact put.holds.recorded

theorem takeAttached_plans (sound : c.Sound) {owner : String}
    {first : Planning (Option (Source × Option String))}
    (is : element = .staticProperty pos order owner name children text)
    (contributed : ∀ t, Plans c underway first t fun found u =>
      ∀ node, children.find? isValue = some node → Contributed c node found u)
    : Plans c underway (takeAttached d pos owner name children text first) s
        (Filled c (childPieces element) (Node.placedAll .attached children) d) := by
  have pieces : childPieces element
      = children.map (⟨.inside element, .node ·⟩)
        ++ (textMatter pos (children.filter isValue).isEmpty text).map (⟨.inside element, ·⟩) := by
    rw [is, childPieces, map_append, map_map]
    rfl
  have stray {d : Draft} {t : State} {nodes : List Node} (none_there : nodes.filter isValue = [])
      : Recorded c (nodes.map (⟨.inside element, .node ·⟩)) d d t := by
    refine .idle fun piece member => ?_
    obtain ⟨node, there, rfl⟩ := mem_map.mp member
    exact .inr (by simpa using filter_eq_nil_iff.mp none_there node there)
  rw [pieces]
  unfold takeAttached
  split
  · rename_i none_there
    rw [none_there]
    have covered {t : State} : Covered c (Node.placedAll .attached children) t := by
      refine covered_placedAll.mpr fun node member => ?_
      rw [placed_attached_of_not_isValue
        (by simpa using filter_eq_nil_iff.mp none_there node member)]
      exact covered_nil
    cases text with
    | none =>
      refine (attach_plans sound ⟨.inside element, .blank pos⟩ rfl (by rw [is]; rfl)).imp ?_
      exact fun _ _ _ taken => ⟨(stray none_there).trans taken.holds, covered⟩
    | some value =>
      refine (attach_plans sound ⟨.inside element, .text value⟩ rfl (by rw [is]; rfl)).imp ?_
      exact fun _ _ _ taken => ⟨(stray none_there).trans taken.holds, covered⟩
  · exact plans_refuse rfl
  · rename_i value only
    have found : children.find? isValue = some value := by
      rw [← head?_filter, only]
      rfl
    obtain ⟨isIt, before, after, split, noneBefore⟩ := find?_eq_some_iff_append.mp found
    have noneBefore : before.filter isValue = [] :=
      filter_eq_nil_iff.mpr fun node member => by simpa using noneBefore node member
    have noneAfter : after.filter isValue = [] := by
      rw [split, filter_append, noneBefore, filter_cons_of_pos isIt] at only
      exact (cons.inj only).2
    -- Of all children one has an effect.
    have whole {d' : Draft} {t : State} (one : Recorded c [⟨.inside element, .node value⟩] d d' t)
        (covered : Covered c (value.placed .definition) t)
        : Filled c (children.map (⟨.inside element, .node ·⟩)
          ++ (textMatter pos (children.filter isValue).isEmpty text).map (⟨.inside element, ·⟩))
          (Node.placedAll .attached children) d d' t := by
      have nodes : Recorded c (children.map (⟨.inside element, .node ·⟩)) d d' t := by
        rw [split, map_append, map_cons]
        exact (stray noneBefore).trans (one.trans (stray noneAfter))
      refine ⟨nodes.trans ?_, covered_placedAll.mpr fun node member => ?_⟩
      · rw [only]
        cases text with
        | none => exact .nil
        | some words =>
          refine .skip ?_
          rw [is]
          refine ⟨any_eq_true.mpr ⟨value, ?_, isValue_eq_isItem value ▸ isIt⟩, nofun⟩
          exact mem_of_find?_eq_some found
      · cases kind : isValue node with
        | false =>
          rw [placed_attached_of_not_isValue kind]
          exact covered_nil
        | true =>
          have one : node ∈ children.filter isValue := mem_filter.mpr ⟨member, kind⟩
          rw [only, mem_singleton] at one
          subst one
          rw [placed_of_isItem (isValue_eq_isItem node ▸ kind) .attached .definition]
          exact covered
    refine attachedType_plans.bindGiven (fun _ => plans_pure_of_not_clean) ?_
    rintro ⟨ownerType, type⟩ t _
    refine (contributed t).bind fun given u after => ?_
    rcases given with _ | ⟨source, valueType⟩
    · refine plans_pure.mpr fun clean _ => ?_
      have contributed := (after clean).holds value found
      exact whole (.skip (.inl contributed.value)) contributed.covered
    · refine checkAssignable_plans.bind fun _ v checked => plans_pure.mpr fun clean _ => ?_
      obtain ⟨between, _, grows, _⟩ := checked clean
      have contributed := (after between).holds value found
      have given : Piece.Gives c.types (Standing c u) ⟨.inside element, .node value⟩ source
          ∧ Reads c u source :=
        contributed.gives rfl
      obtain ⟨gives, reads⟩ := given
      exact whole (recorded_addStep (gives.mono fun _ _ stands => stands.mono grows)
        ⟨nofun, nofun⟩ (by rw [is]; rfl) ⟨rfl, reads.mono grows⟩) (contributed.covered.mono grows)

end Fxml.Planning
