import Mathlib
import Fxml.Document.Parser
import Fxml.Proofs.Markup.Nesting

/-! Scopes of prefixes. Which prefixes are those of the markup language in a tag is told by that tag
and the tags around it: the nearest declaration counts. The sets of prefixes that are changed in place
hold just these.
-/

open List

namespace Fxml.Document

variable {p : String} {prefixes : List String}

/-- The address that is declared last for a prefix, from the outermost tag to the innermost. The
innermost tag comes first.
-/
def nearest? (p : String) : List Markup.Tag → Option String
  | [] => none
  | tag :: outer =>
    match tag.attributes.reverse.find? (·.name = "xmlns:" ++ p) with
    | some declaration => some declaration.value
    | none => nearest? p outer

/-- Whether the nearest declaration makes a prefix one of the markup language. -/
def isFx (tags : List Markup.Tag) (p : String) : Bool :=
  match nearest? p tags with
  | some address => address.startsWith fxNamespace
  | none => p = "fx"

/-- The prefixes of the markup language inside some tags. -/
def scopeOf : List Markup.Tag → List String
  | [] => ["fx"]
  | tag :: outer => (tag.attributes.filter fun a => isDeclaration a.name).foldl declare (scopeOf outer)

/-! ### Declarations -/

theorem isDeclaration_append (p : String) : isDeclaration ("xmlns:" ++ p) = true := by
  simp [isDeclaration, String.startsWith_string_iff]

theorem declaredPrefix_append (p : String) : declaredPrefix ("xmlns:" ++ p) = p := by
  simp [declaredPrefix]

theorem name_of_declaredPrefix {name : String} (declares : isDeclaration name = true)
    (real : p ≠ "") (same : declaredPrefix name = p)
    : name = "xmlns:" ++ p := by
  subst same
  simp only [isDeclaration, Bool.or_eq_true, beq_iff_eq, String.startsWith_string_iff] at declares
  rcases declares with rfl | ⟨rest, found⟩
  · exact absurd rfl real
  · rw [declaredPrefix, ← found, ← String.toList_inj]
    simp [← found]

/-- One attribute settles a prefix if it declares it. -/
theorem mem_declare (real : p ≠ "") (a : Markup.RawAttribute)
    : (p ∈ if isDeclaration a.name then declare prefixes a else prefixes)
      ↔ if a.name = "xmlns:" ++ p then a.value.startsWith fxNamespace = true else p ∈ prefixes := by
  by_cases own : a.name = "xmlns:" ++ p
  · rw [own, isDeclaration_append, if_pos rfl, if_pos rfl, declare, own, declaredPrefix_append,
      if_neg real]
    split
    · simp [*]
    · simp [*]
  · rw [if_neg own]
    split
    · rename_i declares
      have other : p ≠ declaredPrefix a.name :=
        fun same => own (name_of_declaredPrefix declares real same.symm)
      unfold declare
      dsimp only
      split
      · rfl
      · split
        · simp [other]
        · simp [other]
    · rfl

theorem mem_foldl_declare (real : p ≠ "") (attributes : List Markup.RawAttribute)
    : p ∈ (attributes.filter fun a => isDeclaration a.name).foldl declare prefixes
      ↔ match attributes.reverse.find? (·.name = "xmlns:" ++ p) with
        | some declaration => declaration.value.startsWith fxNamespace = true
        | none => p ∈ prefixes := by
  rw [foldl_filter]
  induction attributes using reverseRecOn with
  | nil => rfl
  | append_singleton before last ih =>
    rw [foldl_append, foldl_cons, foldl_nil, mem_declare real, reverse_append, reverse_singleton,
      singleton_append, find?_cons]
    by_cases own : last.name = "xmlns:" ++ p
    · simp [own]
    · simpa [own] using ih

theorem not_mem_foldl_declare (attributes : List Markup.RawAttribute) (h : "" ∉ prefixes)
    : "" ∉ attributes.foldl declare prefixes := by
  induction attributes generalizing prefixes with
  | nil => exact h
  | cons a rest ih =>
    refine ih ?_
    unfold declare
    dsimp only
    split
    · exact h
    · split
      · simp [Ne.symm ‹_›, h]
      · simp [h]

theorem mem_scopeOf (tags : List Markup.Tag) (p : String)
    : p ∈ scopeOf tags ↔ p ≠ "" ∧ isFx tags p = true := by
  by_cases real : p = ""
  · subst real
    have never : "" ∉ scopeOf tags := by
      induction tags with
      | nil => simp [scopeOf]
      | cons tag outer ih => exact not_mem_foldl_declare _ ih
    simp [never]
  · induction tags with
    | nil => simpa [scopeOf, isFx, nearest?] using fun same : p = "fx" => same ▸ real
    | cons tag outer ih =>
      rw [scopeOf, mem_foldl_declare real, isFx, nearest?]
      split
      · simp [*]
      · exact ih

/-! ### Sets in place -/

theorem declare_of_empty {a : Markup.RawAttribute} (empty : declaredPrefix a.name = "")
    : declare prefixes a = prefixes :=
  if_pos empty

theorem modify_last (sets : List (List String)) (own : List String) (f : List String → List String)
    : (sets ++ [own]).modify sets.length f = sets ++ [f own] := by
  induction sets with
  | nil => rfl
  | cons first rest ih => simpa using ih

namespace PrefixScope

variable {s : PrefixScope}

/-- Once a set is the element's own, declarations go into it. -/
theorem foldl_note_own (counts : s.current < s.sets.length) (declarations : List Markup.RawAttribute)
    (own : List String)
    : declarations.foldl note ({ s with sets := s.sets ++ [own] }, s.sets.length)
      = ({ s with sets := s.sets ++ [declarations.foldl declare own] }, s.sets.length) := by
  induction declarations generalizing own with
  | nil => rfl
  | cons a rest ih =>
    rw [foldl_cons, foldl_cons, ← ih]
    refine congrArg (rest.foldl note ·) ?_
    unfold note
    split
    · rename_i empty
      rw [declare_of_empty empty]
    · have other : s.sets.length ≠ s.current := Nat.ne_of_gt counts
      simp only [if_neg other]
      rw [modify_last]

/-- The set that counts inside a tag holds the declarations of the tag; all sets made before stay. -/
theorem foldl_note (counts : s.sets[s.current]? = some prefixes)
    (declarations : List Markup.RawAttribute)
    : ∃ more own,
        declarations.foldl note (s, s.current) = ({ s with sets := s.sets ++ more }, own)
        ∧ (s.sets ++ more)[own]? = some (declarations.foldl declare prefixes) := by
  induction declarations with
  | nil => exact ⟨[], s.current, by simp, by simpa using counts⟩
  | cons a rest ih =>
    rw [foldl_cons, foldl_cons]
    by_cases empty : declaredPrefix a.name = ""
    · rw [declare_of_empty empty, note, if_pos empty]
      exact ih
    · -- The first declaration that counts makes a copy, and the others go into it.
      have bound : s.current < s.sets.length := (List.getElem?_eq_some_iff.mp counts).1
      have copied : note (s, s.current) a
          = ({ s with sets := s.sets ++ [declare prefixes a] }, s.sets.length) := by
        have held : s.prefixes = prefixes := by
          rw [PrefixScope.prefixes, counts, Option.getD_some]
        simp [note, empty, held, modify_last]
      rw [copied, foldl_note_own bound]
      exact ⟨_, _, rfl, by simp⟩

end PrefixScope

end Fxml.Document
