import Mathlib.Data.List.Perm.Basic
import Fxml.Types.Source

/-! What a tag names among imported types. The answer depends on which imports there are and not on
their order, and wildcard imports do not count where a single import gives a type.
-/

open List Fxml.TypeName

namespace Fxml.TypeSource

variable {source : TypeSource} {tag candidate : String} {imports imports' : List Import}
  {candidates : List String}

/-! ### Matches -/

/-- A single import makes the tag the name of a type. -/
def SingleMatch (source : TypeSource) (tag : String) (imports : List Import) (candidate : String)
    : Prop :=
  ∃ i ∈ imports, i.wildcard = false ∧ importedName? i.name tag = some candidate
    ∧ source.hasType candidate = true

/-- A wildcard import makes the tag the name of a type. -/
def WildcardMatch (source : TypeSource) (tag : String) (imports : List Import) (candidate : String)
    : Prop :=
  ∃ i ∈ imports, i.wildcard = true ∧ i.name ++ "." ++ tag = candidate
    ∧ source.hasType candidate = true

/-- Names that are candidates and not there yet come last; none comes twice. -/
theorem foldl_addCandidate (source : TypeSource) (names found : List String) (unique : found.Nodup)
    : (names.foldl source.addCandidate found).Nodup
      ∧ ∀ candidate, candidate ∈ names.foldl source.addCandidate found
        ↔ candidate ∈ found ∨ candidate ∈ names ∧ source.hasType candidate = true := by
  induction names generalizing found with
  | nil => exact ⟨unique, by simp⟩
  | cons name rest ih =>
    rw [foldl_cons, addCandidate]
    split
    · rename_i new
      simp only [Bool.and_eq_true, Bool.not_eq_true', contains_eq_mem,
        decide_eq_false_iff_not] at new
      have unique : (found ++ [name]).Nodup := by
        simpa [nodup_append, unique] using fun a there (same : a = name) => new.1 (same ▸ there)
      obtain ⟨unique, members⟩ := ih (found ++ [name]) unique
      refine ⟨unique, fun candidate => ?_⟩
      rw [members]
      grind
    · obtain ⟨unique, members⟩ := ih found unique
      refine ⟨unique, fun candidate => ?_⟩
      rw [members]
      grind

theorem explicitCandidates_nodup_and_mem (source : TypeSource) (tag : String) (imports : List Import)
    : (source.explicitCandidates tag imports).Nodup
      ∧ ∀ candidate, candidate ∈ source.explicitCandidates tag imports
        ↔ SingleMatch source tag imports candidate := by
  have folded : source.explicitCandidates tag imports
      = ((imports.filter (!·.wildcard)).filterMap (importedName? ·.name tag)).foldl
          source.addCandidate [] := by
    rw [foldl_filterMap, explicitCandidates]
    congr 1
    funext found i
    cases importedName? i.name tag <;> rfl
  obtain ⟨unique, members⟩ := foldl_addCandidate source
    ((imports.filter (!·.wildcard)).filterMap (importedName? ·.name tag)) [] nodup_nil
  rw [folded]
  refine ⟨unique, fun candidate => ?_⟩
  rw [members]
  simp only [SingleMatch, mem_filterMap, mem_filter]
  grind

theorem wildcardCandidates_nodup_and_mem (source : TypeSource) (tag : String) (imports : List Import)
    : (source.wildcardCandidates tag imports).Nodup
      ∧ ∀ candidate, candidate ∈ source.wildcardCandidates tag imports
        ↔ WildcardMatch source tag imports candidate := by
  obtain ⟨unique, members⟩ := foldl_addCandidate source
    ((imports.filter (·.wildcard)).map (·.name ++ "." ++ tag)) [] nodup_nil
  rw [wildcardCandidates, ← foldl_map]
  refine ⟨unique, fun candidate => ?_⟩
  rw [members]
  simp only [WildcardMatch, mem_map, mem_filter]
  grind

/-! ### Answers -/

/-- An answer that some matches call for: the one there is, or all of them if they are several. -/
def Settles (tag : String) (found : String → Prop) : Except AmbiguousType (Option String) → Prop
  | .ok none => False
  | .ok (some name) => ∀ candidate, found candidate ↔ candidate = name
  | .error ambiguous => ambiguous.name = tag
    ∧ (∀ candidate, candidate ∈ ambiguous.candidates ↔ found candidate)
    ∧ ∃ one other, found one ∧ found other ∧ one ≠ other

/-- The answer for the candidates of one level, with what is found below for none. -/
def answerOf (tag : String) (below : Except AmbiguousType (Option String))
    : List String → Except AmbiguousType (Option String)
  | [] => below
  | [name] => .ok (some name)
  | several => .error ⟨tag, several⟩

theorem settles_answerOf {found : String → Prop} {below} (some : candidates ≠ [])
    (unique : candidates.Nodup) (members : ∀ candidate, candidate ∈ candidates ↔ found candidate)
    : Settles tag found (answerOf tag below candidates) := by
  match candidates with
  | [name] => exact fun candidate => by rw [← members, mem_singleton]
  | a :: b :: more =>
    refine ⟨rfl, members, a, b, (members a).mp (by simp), (members b).mp (by simp), ?_⟩
    intro same
    simp [same] at unique

/-- A tag that needs no import: a built-in name or another name of one. -/
def IsBuiltIn (tag : String) : Prop :=
  (alias? tag).isSome ∨ isPrimitive tag

theorem resolveType_of_isBuiltIn (builtIn : IsBuiltIn tag) (imports imports' : List Import)
    : source.resolveType tag imports = source.resolveType tag imports' := by
  simp only [resolveType]
  cases other : alias? tag with
  | some name => rfl
  | none =>
    have primitive : isPrimitive tag = true := by simpa [IsBuiltIn, other] using builtIn
    simp [primitive]

theorem resolveType_of_not_isBuiltIn (imported : ¬IsBuiltIn tag)
    : source.resolveType tag imports
      = answerOf tag
          (answerOf tag
            (.ok (if tag.toList.contains '.' && source.hasType tag then some tag else none))
            (source.wildcardCandidates tag imports))
          (source.explicitCandidates tag imports) := by
  obtain ⟨noAlias, notPrimitive⟩ := not_or.mp imported
  rw [Option.not_isSome_iff_eq_none] at noAlias
  simp only [resolveType, noAlias, notPrimitive]
  rcases source.explicitCandidates tag imports with _ | ⟨a, _ | ⟨b, more⟩⟩
    <;> rcases source.wildcardCandidates tag imports with _ | ⟨c, _ | ⟨d, more'⟩⟩
    <;> simp [answerOf]

/-- Where single imports match, they alone settle what a tag is. -/
theorem resolveType_of_singleMatch (imported : ¬IsBuiltIn tag)
    (single : SingleMatch source tag imports candidate)
    : Settles tag (SingleMatch source tag imports) (source.resolveType tag imports) := by
  obtain ⟨unique, members⟩ := explicitCandidates_nodup_and_mem source tag imports
  have some := ne_nil_of_mem ((members candidate).mpr single)
  rw [resolveType_of_not_isBuiltIn imported]
  exact settles_answerOf some unique members

/-! ### Order -/

/-- Two answers that differ at most in the order of the candidates they list. -/
def SameAnswer : Except AmbiguousType (Option String) → Except AmbiguousType (Option String) → Prop
  | .ok found, .ok found' => found = found'
  | .error a, .error a' => a.name = a'.name
    ∧ ∀ candidate, candidate ∈ a.candidates ↔ candidate ∈ a'.candidates
  | _, _ => False

theorem SameAnswer.refl : ∀ answer, SameAnswer answer answer
  | .ok _ => rfl
  | .error _ => ⟨rfl, fun _ => Iff.rfl⟩

theorem sameAnswer_answerOf {candidates' : List String} {below below'}
    (perm : candidates.Perm candidates') (same : SameAnswer below below')
    : SameAnswer (answerOf tag below candidates) (answerOf tag below' candidates') := by
  have length := perm.length_eq
  match candidates, candidates' with
  | [], [] => exact same
  | [_], [_] => exact congrArg some (by simpa using perm)
  | _ :: _ :: _, _ :: _ :: _ => exact ⟨rfl, fun _ => perm.mem_iff⟩
  | [], _ :: _ | _ :: _, [] | [_], _ :: _ :: _ | _ :: _ :: _, [_] => simp at length

theorem explicitCandidates_perm (perm : imports.Perm imports')
    : (source.explicitCandidates tag imports).Perm (source.explicitCandidates tag imports') := by
  obtain ⟨unique, members⟩ := explicitCandidates_nodup_and_mem source tag imports
  obtain ⟨unique', members'⟩ := explicitCandidates_nodup_and_mem source tag imports'
  rw [perm_ext_iff_of_nodup unique unique']
  intro candidate
  rw [members, members']
  simp only [SingleMatch, perm.mem_iff]

theorem wildcardCandidates_perm (perm : imports.Perm imports')
    : (source.wildcardCandidates tag imports).Perm (source.wildcardCandidates tag imports') := by
  obtain ⟨unique, members⟩ := wildcardCandidates_nodup_and_mem source tag imports
  obtain ⟨unique', members'⟩ := wildcardCandidates_nodup_and_mem source tag imports'
  rw [perm_ext_iff_of_nodup unique unique']
  intro candidate
  rw [members, members']
  simp only [WildcardMatch, perm.mem_iff]

/-- The order of imports does not matter to what a tag names. Where a single import gives a tag its
type, wildcard imports do not matter either.
-/
theorem resolveType_perm (source : TypeSource) (tag : String) (perm : imports.Perm imports')
    : SameAnswer (source.resolveType tag imports) (source.resolveType tag imports')
      ∧ ((∃ candidate, SingleMatch source tag imports candidate)
        → IsBuiltIn tag
          ∨ Settles tag (SingleMatch source tag imports) (source.resolveType tag imports)) := by
  by_cases builtIn : IsBuiltIn tag
  · rw [resolveType_of_isBuiltIn builtIn imports imports']
    exact ⟨.refl _, fun _ => .inl builtIn⟩
  refine ⟨?_, fun ⟨_, found⟩ => .inr (resolveType_of_singleMatch builtIn found)⟩
  rw [resolveType_of_not_isBuiltIn builtIn, resolveType_of_not_isBuiltIn builtIn]
  apply sameAnswer_answerOf (explicitCandidates_perm perm)
  apply sameAnswer_answerOf (wildcardCandidates_perm perm)
  exact .refl _

/-- Two packages have a `Box`, so the tag is ambiguous, until a single import gives one of them. -/
theorem resolveType_perm_box
    : let source : TypeSource := ⟨["ui.Box", "web.Box"].contains, fun _ => none⟩
      let box (name : String) (wildcard : Bool) : Import := ⟨⟨1, 1⟩, name, wildcard⟩
      let imports := [box "ui" true, box "web" true, box "ui.Box" false]
      let imports' := [box "ui.Box" false, box "web" true, box "ui" true]
      imports.Perm imports' ∧ SingleMatch source "Box" imports "ui.Box"
        ∧ source.resolveType "Box" imports = .ok (some "ui.Box")
        ∧ source.resolveType "Box" (imports.take 2) = .error ⟨"Box", ["ui.Box", "web.Box"]⟩
        ∧ SameAnswer (source.resolveType "Box" imports) (source.resolveType "Box" imports') := by
  refine ⟨by decide, ?_, by decide +kernel, by decide +kernel, ?_⟩
  · exact ⟨_, getLast_mem (by decide), rfl, by decide +kernel, by decide +kernel⟩
  · exact (resolveType_perm _ _ (by decide)).1

end Fxml.TypeSource
