import Fxml.Proofs.Planning.Variables

/-! Names that the generated method may use for its variables. An id is its own variable exactly
when it is such a name and no id before it has that variable.
-/

open List Fxml.Naming

namespace Fxml

namespace Naming

/-- A name that a variable of the generated method may have: an identifier that means nothing else
in the generated language, in the method itself or among the names in `reserved`.
-/
def Legal (reserved : List String) (name : String) : Prop :=
  Text.isIdentifier name = true
    ∧ isKeyword name = false
    ∧ isBuiltin name = false
    ∧ name ∉ buildNames
    ∧ name ∉ reserved

instance (reserved : List String) (name : String) : Decidable (Legal reserved name) :=
  inferInstanceAs (Decidable (_ ∧ _ ∧ _ ∧ _ ∧ _))

end Naming

namespace Namer

variable {n : Namer} {name : String} {reserved : List String}

theorem legal_of_usable (avoids : buildNames ++ reserved ⊆ n.taken) (h : n.usable name = true)
    : Legal reserved name := by
  have new := not_mem_of_usable h
  simp only [usable, Bool.and_eq_true, Bool.not_eq_true'] at h
  refine ⟨h.1.1.1, h.1.1.2, h.1.2, fun member => new (avoids ?_), fun member => new (avoids ?_)⟩
  · exact mem_append_left _ member
  · exact mem_append_right _ member

theorem usable_of_legal (legal : Legal reserved name) (new : name ∉ n.taken)
    : n.usable name = true := by
  obtain ⟨identifier, keyword, builtin, -, -⟩ := legal
  simp [usable, identifier, keyword, builtin, new]

end Namer

namespace Planning

/-- What holds of names once some nodes are registered: those in use are reserved or the variable of
an id, and each id of the nodes is registered.
-/
structure Claimed (reserved : List String) (nodes : List Node) (r : Registration) : Prop where
  taken
    : ∀ name,
        name ∈ r.namer.taken
        ↔ name ∈ buildNames ++ reserved ∨ name ∈ r.registry.values.map Entry.var
  legal : ∀ rank var, (rank, var) ∈ r.vars → Legal reserved var
  declared
    : ∀ node ∈ nodes, ∀ id, node.id? = some id → id ≠ Expr.controllerName → id ∈ r.registry.keys
  own
    : ∀ before id entry after,
        r.registry = before ++ (id, entry) :: after
        → (entry.var = id ↔ Legal reserved id ∧ ∀ other ∈ Table.values before, other.var ≠ id)

variable {reserved : List String} {nodes : List Node} {node : Node} {r r' : Registration}

theorem claimed_start (ds : Diagnostics) (reserved : List String)
    : Claimed reserved [] { diagnostics := ds, namer := .avoiding reserved } where
  taken _ := by simp [Namer.avoiding, Table.values]
  legal _ _ member := nomatch member
  declared _ member := nomatch member
  own before id entry after same := by simp at same

section

variable (h : Claimed reserved nodes r)
include h

/-- A name can be given out if it is legal and no id has it. -/
theorem Claimed.usable_iff {name : String}
    : r.namer.usable name = true
      ↔ Legal reserved name ∧ ∀ other ∈ r.registry.values, other.var ≠ name := by
  constructor
  · intro usable
    refine ⟨Namer.legal_of_usable (fun other member => ?_) usable, ?_⟩
    · exact (h.taken other).mpr (.inl member)
    · rintro other member rfl
      exact Namer.not_mem_of_usable usable ((h.taken _).mpr (.inr (mem_map_of_mem member)))
  · rintro ⟨legal, others⟩
    refine Namer.usable_of_legal legal fun taken => ?_
    rcases (h.taken name).mp taken with kept | given
    · exact (mem_append.mp kept).elim legal.2.2.2.1 legal.2.2.2.2
    · obtain ⟨other, member, same⟩ := mem_map.mp given
      exact others other member same

/-- A node that is passed over has no id, or one that needs no entry. -/
theorem Claimed.skip (ds : Diagnostics)
    (known : ∀ id, node.id? = some id → id ≠ Expr.controllerName → id ∈ r.registry.keys)
    : Claimed reserved (nodes ++ [node]) { r with diagnostics := ds } where
  taken := h.taken
  legal := h.legal
  declared other member := by
    rcases mem_append.mp member with old | new
    · exact h.declared other old
    · rw [mem_singleton.mp new]
      exact known
  own := h.own

/-- A new id is entered after the others, with a variable that was usable. -/
theorem Claimed.accept {id var : String} {namer : Namer} (declares : node.id? = some id)
    (absent : r.registry.get? id = none) (taken : namer.taken = var :: r.namer.taken)
    (usable : r.namer.usable var = true) (own : var = id ↔ r.namer.usable id = true)
    : Claimed reserved (nodes ++ [node])
        { r with
          namer := namer, vars := (node.order, var) :: r.vars
          registry := r.registry.put id ⟨node, var⟩ } := by
  have last : r.registry.put id ⟨node, var⟩ = r.registry ++ [(id, ⟨node, var⟩)] := by
    rw [Table.put, Table.contains, absent]
    rfl
  refine {
    taken := fun name => ?_
    legal := fun rank name member => ?_
    declared := fun other member id' declares' away => ?_
    own := fun before id' entry after same => ?_
  }
  · have old := h.taken name
    simp only [Table.values] at old
    simp only [taken, last, Table.values, mem_cons, map_append, mem_append, old]
    simp only [map_cons, map_nil, mem_singleton]
    tauto
  · rcases mem_cons.mp member with same | old
    · cases same
      exact (h.usable_iff.mp usable).1
    · exact h.legal rank name old
  · rw [Table.mem_keys_put]
    rcases mem_append.mp member with old | new
    · exact .inr (h.declared other old id' declares' away)
    · rw [mem_singleton.mp new, declares] at declares'
      exact .inl (Option.some.inj declares').symm
  · rw [last] at same
    rcases eq_nil_or_concat after with rfl | ⟨rest, final, rfl⟩
    · obtain ⟨rfl, there⟩ := append_inj' same rfl
      cases there
      rw [own, h.usable_iff]
    · rw [concat_eq_append, ← cons_append, ← append_assoc] at same
      exact h.own before id' entry rest (append_inj' same rfl).1

theorem Claimed.step (step : register r node = .ok r')
    : Claimed reserved (nodes ++ [node]) r' := by
  cases registers_of_ok step with
  | unnamed nameless => exact h.skip r.diagnostics fun id declares => nomatch nameless ▸ declares
  | refused declares needless =>
    refine h.skip _ fun id' declares' => ?_
    cases declares.symm.trans declares'
    exact needless
  | accepted declares absent usable taken made =>
    refine h.accept declares absent taken usable ⟨?_, fun own => ?_⟩
    · rintro rfl
      exact usable
    · exact made.resolve_right fun other => other.1 own

end

theorem Claimed.run {done : List Node} (h : Claimed reserved done r)
    (run : nodes.foldlM register r = .ok r')
    : Claimed reserved (done ++ nodes) r' :=
  of_foldlM_ok Claimed.step done h run

end Planning

end Fxml
