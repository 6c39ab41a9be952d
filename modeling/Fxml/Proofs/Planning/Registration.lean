import Fxml.Planning.Document
import Fxml.Proofs.Outcome
import Fxml.Proofs.Planning.Naming

/-! The ids of a document. Each is declared by one node of the tree and has a variable of its own,
which no other id and no part of the generated method uses.
-/

open List Fxml.Planning

namespace Fxml.Planning

variable {r r' : Registration} {node : Node} {nodes : List Node}

/-! ### One node -/

/-- What becomes of a node: it has no id, its id is refused, or the id is new and gets a variable,
which is the id itself where that can be used.
-/
inductive Registers (r : Registration) (node : Node) : Registration → Prop
  | unnamed (nameless : node.id? = none) : Registers r node r
  | refused {id : String} {problem : Problem} (declares : node.id? = some id)
    (needless : id ≠ Expr.controllerName → id ∈ r.registry.keys)
    (grave : problem.severity = .error) (acyclic : problem.kind ≠ .cyclicDependency)
    : Registers r node { r with diagnostics := r.diagnostics.report problem node.pos }
  | accepted {id var : String} {namer : Namer} (declares : node.id? = some id)
    (absent : r.registry.get? id = none) (usable : r.namer.usable var = true)
    (taken : namer.taken = var :: r.namer.taken)
    (made : var = id ∨ r.namer.usable id ≠ true
      ∧ ∃ number, var = Namer.numbered (Naming.identifier id) number)
    : Registers r node
        { r with
          namer := namer, vars := (node.order, var) :: r.vars
          registry := r.registry.put id ⟨node, var⟩ }

theorem registers_of_ok (h : register r node = .ok r') : Registers r node r' := by
  unfold register at h
  split at h
  · rename_i nameless
    cases h
    exact .unnamed nameless
  rename_i id declares
  split at h
  · rename_i kept
    cases h
    exact .refused declares (fun away => (away kept).elim) rfl nofun
  split at h
  · rename_i first found
    cases h
    exact .refused declares (fun _ => Table.mem_keys_of_mem (Table.mem_of_get? found)) rfl nofun
  rename_i absent
  split at h
  · rename_i namer claimed
    cases h
    obtain ⟨usable, taken⟩ := Namer.claim?_eq_some claimed
    exact .accepted declares absent usable taken (.inl rfl)
  rename_i refused
  split at h
  · rename_i var namer found
    cases h
    obtain ⟨usable, number, taken⟩ := Namer.fresh?_eq_some found
    refine .accepted declares absent usable taken (.inr ⟨fun own => ?_, number⟩)
    rw [Namer.claim?, if_pos own] at refused
    cases refused
  · cases h

/-- Reports do not matter for what is registered. -/
theorem register_diagnostics (h : register r node = .ok r') (ds : Diagnostics)
    : ∃ ds', register { r with diagnostics := ds } node = .ok { r' with diagnostics := ds' } := by
  unfold register at h ⊢
  dsimp only at h ⊢
  split at h
  · cases h
    exact ⟨_, rfl⟩
  · rename_i id _
    by_cases reserved : id = Expr.controllerName
    · rw [if_pos reserved] at h ⊢
      cases h
      exact ⟨_, rfl⟩
    rw [if_neg reserved] at h ⊢
    split at h
    · cases h
      exact ⟨_, rfl⟩
    split at h
    · cases h
      exact ⟨_, rfl⟩
    split at h
    · cases h
      exact ⟨_, rfl⟩
    · cases h

/-! ### All nodes -/

/-- The state that planning starts from. -/
def Registration.state (r : Registration) (ds : Diagnostics) : State :=
  { diagnostics := ds, namer := r.namer, vars := r.vars }

/-- What holds once some nodes are registered. -/
structure Registered (nodes : List Node) (r : Registration) : Prop where
  declares
    : ∀ id entry,
        r.registry.get? id = some entry
        → entry.node ∈ nodes
          ∧ entry.node.id? = some id
          ∧ (entry.node.order, entry.var) ∈ r.vars
  unique : r.registry.keys.Nodup
  named : Named (r.state r.diagnostics)
  ranked : ∀ rank var, (rank, var) ∈ r.vars → rank ∈ nodes.map Node.order

theorem registered_start (ds : Diagnostics) (reserved : List String)
    : Registered [] { diagnostics := ds, namer := .avoiding reserved } where
  declares _ _ found := nomatch found
  unique := nodup_nil
  named := {
    ranked := nodup_nil
    unique := nodup_nil
    taken := fun _ _ member => nomatch member
    free := fun _ _ member => nomatch member
    reserved := subset_append_left _ _
  }
  ranked _ _ member := nomatch member

theorem Registered.step (h : Registered nodes r) (new : node.order ∉ nodes.map Node.order)
    (step : register r node = .ok r')
    : Registered (nodes ++ [node]) r' := by
  have more : nodes ⊆ nodes ++ [node] := subset_append_left _ _
  have ranked (rank : Nat) (var : String) (member : (rank, var) ∈ r.vars)
      : rank ∈ (nodes ++ [node]).map Node.order :=
    map_subset _ more (h.ranked rank var member)
  cases registers_of_ok step with
  | unnamed | refused =>
    exact {
      declares := fun id entry found => (h.declares id entry found).imp_left fun member => more member
      unique := h.unique
      named := ⟨h.named.ranked, h.named.unique, h.named.taken, h.named.free, h.named.reserved⟩
      ranked
    }
  | accepted declares absent usable taken =>
    refine {
      declares := fun id' entry found => ?_
      unique := Table.nodup_put h.unique _ _
      named := h.named.give taken (Namer.not_mem_of_usable usable)
        fun var member => new (h.ranked _ var member)
      ranked := fun rank var' member => ?_
    }
    · rw [Table.get?_put] at found
      split at found
      · rename_i same
        cases found
        exact ⟨by simp, same ▸ declares, mem_cons_self⟩
      · obtain ⟨there, id, named⟩ := h.declares id' entry found
        exact ⟨more there, id, mem_cons_of_mem _ named⟩
    · rcases mem_cons.mp member with same | old
      · cases same
        simp
      · exact ranked rank var' old

theorem Registered.run {done : List Node} (h : Registered done r)
    (distinct : ((done ++ nodes).map Node.order).Nodup) (run : nodes.foldlM register r = .ok r')
    : Registered (done ++ nodes) r' := by
  refine of_foldlM_ok (motive := fun done r => (done.map Node.order).Nodup → Registered done r)
    (fun {done r node r'} h step distinct => ?_) done (fun _ => h) run distinct
  rw [map_append, nodup_append] at distinct
  obtain ⟨before, _, apart⟩ := distinct
  exact (h before).step (fun member => apart _ member _ (by simp) rfl) step

theorem foldlM_register_diagnostics (run : nodes.foldlM register r = .ok r') (ds : Diagnostics)
    : ∃ ds',
        nodes.foldlM register { r with diagnostics := ds }
          = .ok { r' with diagnostics := ds' } := by
  refine of_foldlM_ok (motive := fun done r' => ∃ ds',
    done.foldlM register { r with diagnostics := ds } = .ok { r' with diagnostics := ds' })
    (fun {done r node r'} h step => ?_) [] ⟨ds, rfl⟩ run
  obtain ⟨middle, before⟩ := h
  obtain ⟨last, step⟩ := register_diagnostics step middle
  refine ⟨last, ?_⟩
  rw [foldlM_append, before]
  exact congrArg (· >>= pure) step

end Fxml.Planning

namespace Fxml

/-- The ids of a document: the node that declares each, and its variable. Names in `reserved` are
not used for variables.
-/
def Document.ids (document : Document) (reserved : List String) : Table Entry :=
  let namer := Namer.avoiding (reserved ++ importedNames document)
  match document.root.walk.foldlM register { diagnostics := {}, namer } with
  | .ok r => r.registry
  | .error _ => []

theorem Document.ids_eq {document : Document} {reserved : List String} {ds : Diagnostics}
    {r : Registration}
    (run : document.root.walk.foldlM register
      { diagnostics := ds
        namer := .avoiding (reserved ++ importedNames document) } = .ok r)
    : document.ids reserved = r.registry := by
  obtain ⟨ds', same⟩ := foldlM_register_diagnostics run {}
  unfold Document.ids
  dsimp only at same ⊢
  rw [same]

end Fxml
