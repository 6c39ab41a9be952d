import Fxml.Proofs.Planning.Provenance

/-! Elements in the order of their end tags. Where ids are read only after the end tags of the
elements that declare them, the construction order is that of the document.
-/

open List Fxml.Table

namespace Fxml

open Planning

/-! ### Ids that are read -/

def Value.idsRead : Value → List String
  | .once e => (e.references.filter (!·.isController)).map (·.name)
  | _ => []

def Attribute.handler? (a : Attribute) : Option Value :=
  match Value.readHandler a.raw.toList a.valuePos with
  | .ok value => value
  | .error _ => none

/-- The ids that a piece reads outside bindings. -/
def Planning.Piece.idsRead (piece : Piece) : List String :=
  match piece.matter with
  | .attr a => (a.value.toList ++ a.handler?.toList).flatMap Value.idsRead
  | .node (.reference _ _ id) => [id]
  | .text value => value.idsRead
  | .node _ | .blank _ => []

/-- The ids that an element reads outside bindings: the one that it copies, or those of the pieces of
an object.
-/
def Node.idsRead : Node → List String
  | .copy _ _ id _ => [id]
  | node => node.pieces.flatMap Piece.idsRead

/-- Whatever declares an id has its end tag before that of each element that reads it. -/
def Document.ReadsBack (document : Document) : Prop :=
  ∀ node ∈ document.root.walk, ∀ id ∈ node.idsRead, ∀ other ∈ document.root.walk,
    other.id? = some id → other.order < node.order

instance (document : Document) : Decidable document.ReadsBack :=
  inferInstanceAs (Decidable (∀ node ∈ document.root.walk, ∀ id ∈ node.idsRead,
    ∀ other ∈ document.root.walk, other.id? = some id → other.order < node.order))

namespace Planning

variable {c : Context} {s : State} {piece : Piece} {source : Source}

theorem mem_idsRead_of_value {value : Value} (has : piece.value? = some value) {id : String}
    (member : id ∈ value.idsRead)
    : id ∈ piece.idsRead := by
  obtain ⟨slot, matter⟩ := piece
  cases matter with
  | attr a =>
    have has : a.value = some value := has
    exact mem_flatMap.mpr ⟨value, by simp [has], member⟩
  | node => cases has
  | text =>
    cases has
    exact member
  | blank =>
    cases has
    cases member

theorem once_valid {e : Expr} {known declared : String → Prop} {pos : Position}
    {convert : Option String} (reads : ∀ id ∈ (Value.once e).idsRead, declared id)
    : (Source.expr pos (.once e) convert).Valid known declared := by
  refine ⟨e, rfl, fun r member => ?_⟩
  cases controller : r.isController with
  | true => exact .inl rfl
  | false =>
    refine .inr (reads r.name (mem_map_of_mem (mem_filter.mpr ⟨member, ?_⟩)))
    simp [controller]

theorem Piece.Gives.valid {types : TypeSource} {stands : Node → String → Prop}
    (h : piece.Gives types stands source)
    : source.Valid (fun var => ∃ node, piece.matter = .node node ∧ stands node var)
        (· ∈ piece.idsRead) := by
  cases h with
  | @value value _ has makes =>
    cases value with
    | text =>
      obtain ⟨_, converts⟩ := makes
      exact Coercion.convert_valid converts
    | location =>
      cases makes
      trivial
    | resource =>
      obtain ⟨_, rfl⟩ := makes
      trivial
    | once =>
      obtain ⟨_, rfl⟩ := makes
      exact once_valid fun id member => mem_idsRead_of_value has member
    | binding | method => exact makes.elim
  | @handler a _ is handles =>
    unfold Handles at handles
    split at handles
    · obtain ⟨_, rfl⟩ := handles
      trivial
    · rename_i e read
      obtain ⟨_, rfl⟩ := handles
      rw [Source.Valid]
      refine once_valid fun id member => ?_
      have meant : a.handler? = some (.once e) := by simp [Attribute.handler?, read]
      unfold Piece.idsRead
      rw [is]
      exact mem_flatMap.mpr ⟨.once e, by simp [meant], member⟩
    · exact handles.elim
  | node is named => exact ⟨_, is, named⟩

/-! ### Ranks of what an element depends on -/

namespace Made

variable {plan : Plan} {e f : Element} {node : Node} {var id : String}

section

variable (made : Made c plan s)
include made

/-- The element of a variable has the rank of the node that the variable is for. -/
theorem order_of_var {rank : Nat} (named : (rank, var) ∈ s.vars) (there : (var, f) ∈ s.elements)
    : f.order = rank := by
  obtain ⟨rfl, _, _, _, own, _, order, _⟩ := made.inv.standing var f there
  have pair := inj_on_of_nodup_map made.inv.named.unique named own rfl
  exact order.trans (Prod.mk.inj pair).1.symm

theorem order_le_of_id (sound : c.Sound) (back : c.document.ReadsBack)
    (inside : node ∈ c.document.root.walk) (read : id ∈ node.idsRead)
    (declared : c.varOf id = some var) (there : (var, f) ∈ s.elements)
    : f.order ≤ node.order := by
  obtain ⟨entry, found, rfl⟩ := Option.map_eq_some_iff.mp declared
  obtain ⟨within, own⟩ := sound.declares id entry found
  rw [made.order_of_var (made.inv.declared id entry found) there]
  exact Nat.le_of_lt (back node inside id read entry.node within own)

/-- What a value of an element needs is of no higher rank. -/
theorem order_le_of_needed (sound : c.Sound)
    (sorted : c.document.root.postorder.Pairwise fun a b => a.order < b.order)
    (back : c.document.ReadsBack) (inside : node ∈ c.document.root.walk) (told : Told c s e node)
    (member : source ∈ e.sources) (needed : var ∈ source.needs c.varOf)
    (there : (var, f) ∈ s.elements)
    : f.order ≤ node.order := by
  have apart : var ≠ Plan.controllerNode := by
    rintro rfl
    exact made.inv.not_mem_keys controllerNode_mem_buildNames (mem_keys_of_mem there)
  cases object : node.origin? with
  | some origin =>
    obtain ⟨type, log, _, pieces, history⟩ := told.history object
    rcases history.source_given member with ⟨piece, listed, gives⟩ | ⟨_, _, _, _, converts⟩
    · rw [pieces] at listed
      have read {id : String} (h : id ∈ piece.idsRead) : id ∈ node.idsRead := by
        cases node with
        | object => exact mem_flatMap.mpr ⟨piece, listed, h⟩
        | property | staticProperty | define | constant | reference | copy | inclusion =>
          cases object
      -- A reference ranks as what it refers to, any other child by its place below the node.
      rcases gives.valid.needed needed with ⟨inner, is, stands⟩ | controller | ⟨id, reads, declared⟩
      · by_cases refers : ∃ pos order id, inner = .reference pos order id
        · obtain ⟨_, _, id, rfl⟩ := refers
          refine made.order_le_of_id sound back inside (read ?_) stands there
          unfold Piece.idsRead
          rw [is]
          exact mem_singleton_self id
        · have own : (inner.order, var) ∈ s.vars := by
            cases inner with
            | reference => exact (refers ⟨_, _, _, rfl⟩).elim
            | object | property | staticProperty | define | constant | copy | inclusion =>
              exact stands.1
          rw [made.order_of_var own there]
          exact Node.order_le_of_mem_walk sorted inside (mem_walk_of_piece listed is)
      · exact (apart controller).elim
      · exact made.order_le_of_id sound back inside (read reads) declared there
    · have valid : source.Valid (fun _ => False) (fun _ => False) :=
        Coercion.convert_valid converts
      rcases valid.needed needed with none_known | controller | ⟨_, none_declared, _⟩
      · exact none_known.elim
      · exact (apart controller).elim
      · exact none_declared.elim
  | none =>
    cases node with
    | object => cases object
    | copy =>
      obtain ⟨entry, found, only⟩ := told
      rw [only] at member
      cases mem_singleton.mp member
      cases mem_singleton.mp needed
      refine made.order_le_of_id sound back inside (mem_singleton_self _) ?_ there
      simp [Context.varOf, found]
    | property | staticProperty | define | constant | reference | inclusion =>
      have none_there : e.sources = [] := told
      rw [none_there] at member
      cases member

theorem order_byRank (sound : c.Sound)
    (sorted : c.document.root.postorder.Pairwise fun a b => a.order < b.order)
    (back : c.document.ReadsBack)
    : plan.order.Pairwise fun a b =>
        ∀ e f, (a, e) ∈ s.elements → (b, f) ∈ s.elements → e.order ≤ f.order := by
  refine made.ordered.byRank fun var e other f here needed there => ?_
  have finished := made.inv.finished var e here not_mem_nil
  obtain ⟨node, inside, order, told⟩ := finished.told
  rw [order]
  rcases finished.justified other needed with controller | ⟨source, member, needs⟩
  · have known := mem_keys_of_mem there
    rw [controller] at known
    exact (made.inv.not_mem_keys controllerNode_mem_buildNames known).elim
  · exact made.order_le_of_needed sound sorted back inside told member needs there

/-! ### Elements by end tags -/

/-- Elements by their end tags are elements by their ranks. -/
theorem elementsOf_pairwise (sound : c.Sound)
    (sorted : c.document.root.postorder.Pairwise fun a b => a.order < b.order)
    : (c.document.root.postorder.flatMap plan.elementsOf).Pairwise fun e f =>
        e.order < f.order := by
  refine pairwise_flatMap.mpr ⟨fun node member => ?_, ?_⟩
  · cases listed : plan.elementsOf node with
    | nil => exact .nil
    | cons e rest =>
      have member : e ∈ plan.elementsOf node := listed ▸ mem_cons_self
      obtain ⟨there, same⟩ := mem_filter.mp member
      have stands := made.stands sound (made.mem_values.mp there)
        (Node.mem_postorder.mp ‹node ∈ _›) (of_decide_eq_true same).2
      rw [← listed, made.elementsOf_eq (made.mem_values.mp there) stands]
      exact pairwise_singleton _ _
  · refine sorted.imp fun lower e first f second => ?_
    obtain ⟨_, here⟩ := mem_filter.mp first
    obtain ⟨_, there⟩ := mem_filter.mp second
    rw [(of_decide_eq_true here).2, (of_decide_eq_true there).2]
    exact lower

theorem mem_elementsOf
    : e ∈ c.document.root.postorder.flatMap plan.elementsOf ↔ (e.var, e) ∈ s.elements := by
  rw [mem_flatMap]
  constructor
  · rintro ⟨node, _, listed⟩
    exact made.mem_values.mp (mem_of_mem_filter listed)
  · intro there
    obtain ⟨_, node, placed, _, _, pos, order, _⟩ := made.inv.standing _ e there
    refine ⟨node, Node.mem_postorder.mpr placed.mem_walk, mem_filter.mpr ⟨?_, ?_⟩⟩
    · exact made.mem_values.mpr there
    · exact decide_eq_true ⟨pos, order⟩

theorem map_elementsOf_perm (sound : c.Sound)
    (sorted : c.document.root.postorder.Pairwise fun a b => a.order < b.order)
    : plan.order.Perm ((c.document.root.postorder.flatMap plan.elementsOf).map Element.var) := by
  have once : plan.order.Nodup := made.ordered.perm.nodup_iff.mpr made.inv.unique
  have apart : ((c.document.root.postorder.flatMap plan.elementsOf).map Element.var).Nodup := by
    refine pairwise_map.mpr ?_
    refine (made.elementsOf_pairwise sound sorted).imp_of_mem fun {e f} here there lower same => ?_
    have here := made.mem_elementsOf.mp here
    rw [same] at here
    rw [eq_of_mem made.inv.unique here (made.mem_elementsOf.mp there)] at lower
    exact Nat.lt_irrefl _ lower
  refine (perm_ext_iff_of_nodup once apart).mpr fun var => ?_
  rw [made.ordered.perm.mem_iff, mem_map]
  constructor
  · intro member
    obtain ⟨e, there⟩ := mem_keys.mp member
    obtain ⟨rfl, _⟩ := made.inv.standing var e there
    exact ⟨e, made.mem_elementsOf.mpr there, rfl⟩
  · rintro ⟨e, listed, rfl⟩
    exact mem_keys_of_mem (made.mem_elementsOf.mp listed)

/-- The construction order is that of end tags: both list the same elements by their ranks. -/
theorem order_eq (sound : c.Sound)
    (sorted : c.document.root.postorder.Pairwise fun a b => a.order < b.order)
    (back : c.document.ReadsBack)
    : plan.order = (c.document.root.postorder.flatMap plan.elementsOf).map Element.var := by
  have byRank := made.order_byRank sound sorted back
  refine Perm.eq_of_pairwise ?_ byRank ?_ (made.map_elementsOf_perm sound sorted)
  · intro a b ha hb forth back
    obtain ⟨e, here⟩ := mem_keys.mp (made.ordered.perm.mem_iff.mp ha)
    obtain ⟨f, listed, rfl⟩ := mem_map.mp hb
    have there := made.mem_elementsOf.mp listed
    obtain ⟨rfl, _⟩ := made.inv.standing a e here
    have rank := Nat.le_antisymm (forth e f here there) (back f e there here)
    rw [made.eq_of_order here there rank]
  · refine pairwise_map.mpr ?_
    refine (made.elementsOf_pairwise sound sorted).imp_of_mem
      fun {e f} here there lower e' f' same same' => ?_
    rw [eq_of_mem made.inv.unique same (made.mem_elementsOf.mp here),
      eq_of_mem made.inv.unique same' (made.mem_elementsOf.mp there)]
    exact Nat.le_of_lt lower

end

end Made

end Planning

/-- The nodes of a document that is read are numbered by their end tags. In a plan without errors of
such a document the elements are listed by their end tags, where every id that is read outside
bindings is declared on an element that ends before the one that reads it.
-/
theorem Document.order_eq_endTags {src path : String} {document : Document}
    (parsed : Document.read src path = .ok document)
    : document.root.postorder.map Node.order = List.range' 1 document.root.postorder.length
      ∧ ∀ (settings : PlanSettings) (module className : String) (diagnostics reports : Diagnostics)
          (known known' : IncludeCache) (plan : Plan),
          (document.plan settings module className diagnostics).run.run known
            = (.ok (some plan, reports), known')
          → reports.ok = true
          → document.ReadsBack
          → plan.order = (document.root.postorder.flatMap plan.elementsOf).map Element.var := by
  refine ⟨ranks_postorder parsed, fun settings module className diagnostics reports known known'
    plan run clean back => ?_⟩
  obtain ⟨c, s, rfl, _, _, sound, made⟩ := Document.made_of_plan (nodup_ranks parsed) run clean
  exact made.order_eq sound (ranks_pairwise parsed) back

/-- Boxes whose titles are those of boxes that end earlier, one of which is also referred to. -/
def backwardTitles : String :=
  "<?import ui.*?><Box title=\"$last.title\"><Box fx:id=\"first\"/>"
    ++ "<fx:define><Box fx:id=\"last\" title=\"$first.title\"/></fx:define>"
    ++ "<fx:reference source=\"last\"/></Box>"

/-- Boxes with backward titles are built by their end tags. -/
theorem Document.backwardTitles_order
    : ∃ document plan reports known,
        Document.read backwardTitles "" = .ok document
        ∧ (document.plan { types := boxTypes } "" "" { file := "" }).run.run []
          = (.ok (some plan, reports), known)
        ∧ reports.ok = true
        ∧ document.ReadsBack
        ∧ document.root.postorder.map Node.order = [1, 2, 3, 4, 5]
        ∧ plan.order = ["first", "last", "box_1"]
        ∧ plan.order = (document.root.postorder.flatMap plan.elementsOf).map Element.var := by
  have computed : (Document.read backwardTitles "").toOption.bind (fun document =>
      (cleanPlan? boxTypes backwardTitles).map fun plan =>
        (decide document.ReadsBack, document.root.postorder.length, plan.order))
      = some (true, 5, ["first", "last", "box_1"]) := by
    decide +kernel
  obtain ⟨document, read, mapped⟩ := Option.bind_eq_some_iff.mp computed
  obtain ⟨plan, found, same⟩ := Option.map_eq_some_iff.mp mapped
  obtain ⟨_, reports, known, parsed, run, clean⟩ := exists_of_cleanPlan? found
  rw [parsed] at read
  cases read
  simp only [Prod.mk.injEq, decide_eq_true_eq] at same
  obtain ⟨back, number, order⟩ := same
  obtain ⟨numbered, listed⟩ := Document.order_eq_endTags parsed
  rw [number] at numbered
  exact ⟨document, plan, reports, known, parsed, run, clean, back, numbered, order,
    listed _ _ _ _ _ _ _ plan run clean back⟩

end Fxml
