import Fxml.Proofs.Planning.Presence

/-! Where the values of an object's element come from: each from a piece of the node's content, or from
the text that the object is read from.
-/

open List

namespace Fxml.Planning

variable {c : Context} {s : State} {origin : Origin} {type : TypeDescriptor} {e : Element}
  {log : Log} {piece : Piece} {name : String} {source : Source} {node : Node}

/-- The piece of an entry is one of those of its record. -/
theorem mem_map_fst {effect : Effect} (member : (piece, effect) ∈ log) : piece ∈ log.map Prod.fst :=
  mem_map_of_mem member

namespace History

/-- What is kept for construction was kept by a piece. -/
theorem kept_by (h : History c s origin type e log) {element : Element} {place : Option Position}
    (member : (name, source, place) ∈ (replay { element, descriptor := type } log).pending)
    : ∃ held ∈ log.map Prod.fst, held.kept? type = some name
        ∧ held.Gives c.types (Standing c s) source := by
  obtain ⟨_, _, _, _, due, _⟩ := h
  rcases mem_pending_replay member with impossible | ⟨held, site, there⟩
  · cases impossible
  · obtain ⟨gives, kept⟩ := (due _ there).1
    exact ⟨held, mem_map_fst there, kept, gives⟩

/-- The values of an element come from its pieces, or from the text that it is read from. -/
theorem source_given (h : History c s origin type e log) (member : source ∈ e.sources)
    : (∃ piece ∈ log.map Prod.fst, piece.Gives c.types (Standing c s) source)
      ∨ ∃ text pos type,
          origin = .value text ∧ Coercion.convert c.types pos type text = .ok source := by
  have history := h
  obtain ⟨element, d', bare, var, due, chosen, whole⟩ := h
  have bare : Bare (replay { element, descriptor := type } log).element := by
    rw [(replay_same _ _).1]
    exact bare
  rcases chosen.source_from bare (whole.sources ▸ member) with
    ⟨step, there, rfl⟩ | ⟨name, place, kept⟩ | ⟨value, has, makes, _⟩ | read
  · refine .inl ?_
    rw [steps_replay, handlers_replay] at there
    rcases mem_append.mp there with set | handled
    · obtain ⟨⟨piece, effect⟩, listed, same⟩ := mem_filterMap.mp set
      cases Effect.step?_eq_some same
      exact ⟨piece, mem_map_fst listed, (due _ listed).1.1⟩
    · obtain ⟨⟨piece, effect⟩, listed, same⟩ := mem_filterMap.mp handled
      cases Effect.handler?_eq_some same
      exact ⟨piece, mem_map_fst listed, (due _ listed).1.1⟩
  · obtain ⟨held, listed, _, gives⟩ := history.kept_by kept
    exact .inl ⟨held, listed, gives⟩
  · rcases text_replay has with impossible | ⟨piece, listed⟩
    · cases impossible
    · obtain ⟨same, _⟩ := (due _ listed).1
      have same : piece = ⟨.own, .text value⟩ := same
      refine .inl ⟨piece, mem_map_fst listed, .value ?_ makes⟩
      rw [same]
      rfl
  · exact .inr read

end History

/-! ### The pieces of a node -/

theorem mem_walk_of_childPiece {child : Node} {slot : Slot}
    (member : (⟨slot, .node node⟩ : Piece) ∈ childPieces child)
    : node ∈ child.walk := by
  have inner {children : List Node} (there : node ∈ children) : node ∈ Node.walkAll children :=
    Node.mem_walkAll.mpr ⟨node, there, node.mem_walk_self⟩
  have wordless {alone : Bool} {pos : Position} {text : Option Value}
      (there : .node node ∈ textMatter pos alone text)
      : False := by
    unfold textMatter at there
    split at there
    · simp at there
    · split at there <;> simp at there
  cases child with
  | property pos order name attributes children text =>
    simp only [childPieces, mem_map, mem_append, Piece.mk.injEq] at member
    obtain ⟨matter, (⟨⟨a, _, rfl⟩⟩ | ⟨other, there, rfl⟩) | there, _, same⟩ := member
    · cases same
    · cases same
      exact mem_cons_of_mem _ (inner (mem_of_mem_filter there))
    · exact (wordless (same ▸ there)).elim
  | staticProperty pos order owner name children text =>
    simp only [childPieces, mem_map, mem_append, Piece.mk.injEq] at member
    obtain ⟨matter, ⟨other, there, rfl⟩ | there, _, same⟩ := member
    · cases same
      exact mem_cons_of_mem _ (inner there)
    · exact (wordless (same ▸ there)).elim
  | define => cases member
  | object | constant | reference | copy | inclusion =>
    cases mem_singleton.mp member
    exact Node.mem_walk_self _

theorem mem_walk_of_piece {parent : Node} (member : piece ∈ parent.pieces)
    (is : piece.matter = .node node)
    : node ∈ parent.walk := by
  obtain ⟨slot, _⟩ := piece
  cases is
  cases parent with
  | object pos order origin tag id attributes children text =>
    rcases mem_append.mp member with content | words
    · rcases mem_append.mp content with given | child
      · simp at given
      · obtain ⟨child, listed, there⟩ := mem_flatMap.mp child
        exact mem_cons_of_mem _ (Node.mem_walkAll.mpr ⟨child, listed, mem_walk_of_childPiece there⟩)
    · unfold textPieces at words
      split at words <;> simp at words
  | property | staticProperty | define | constant | reference | copy | inclusion => cases member

/-- The record of an element is that of the pieces of its object. -/
theorem Told.history (h : Told c s e node) (object : node.origin? = some origin)
    : ∃ type log,
        c.types.describe e.type = some type
        ∧ log.map Prod.fst = node.pieces
        ∧ History c s origin type e log := by
  cases node with
  | object =>
    cases object
    exact h
  | property | staticProperty | define | constant | reference | copy | inclusion => cases object

end Fxml.Planning
