import Fxml.Document.Name
import Fxml.Proofs.Planning.Variables

/-! Names made from hints. A hint leads to the first usable name after those it has led to before,
and the search for it ends, just when all characters that the hint becomes may stand in an
identifier.
-/

open List Fxml.Naming

namespace Fxml

namespace Naming

open Text

/-- What is left of a hint: its words in snake case. -/
def words (hint : String) : List Char := trimBy (· == '_') (joinWords false (snake hint).toList)

/-- Hints whose words may stand in an identifier. A digit in front gets a letter before it. -/
def Spellable (hint : String) : Prop :=
  (∀ c ∈ words hint, isIdentifierRest c = true)
    ∧ ∀ c rest, words hint = c :: rest → isDigit c = true ∨ isIdentifierStart c = true

theorem isIdentifierRest_of_start {c : Char} (h : isIdentifierStart c = true)
    : isIdentifierRest c = true := by
  unfold isIdentifierStart at h
  unfold isIdentifierRest
  split at h
  · rw [if_pos ‹_›]
    simp [isAsciiAlnum, h]
  · rw [if_neg ‹_›]
    simp [h]

theorem isIdentifierRest_of_plain {c : Char} (h : isAsciiAlnum c = true)
    : isIdentifierRest c = true := by
  rw [isIdentifierRest, if_pos (lt_of_isAsciiAlnum h)]
  exact h

/-- Plain characters at the end do not matter. -/
theorem isIdentifier_append {s : String} (nonempty : s ≠ "") {ending : String}
    (plain : Plain ending.toList)
    : isIdentifier (s ++ ending) = isIdentifier s := by
  have tail : ending.toList.all isIdentifierRest = true :=
    all_eq_true.mpr fun c member => isIdentifierRest_of_plain (plain c member)
  unfold isIdentifier
  rw [String.toList_append]
  cases chars : s.toList with
  | nil => exact (nonempty (String.toList_eq_nil_iff.mp chars)).elim
  | cons c rest => simp [tail]

theorem identifier_eq (hint : String)
    : ∃ named, identifier hint = (if isKeyword named then named ++ "_" else named)
        ∧ named ≠ ""
        ∧ (isIdentifier named = true ↔ Spellable hint) := by
  have words_eq : trimBy (· == '_') (joinWords false (snake hint).toList) = words hint := rfl
  unfold identifier Spellable
  rw [words_eq]
  cases words hint with
  | nil => exact ⟨"n_", rfl, by decide, by simp; decide⟩
  | cons c rest =>
    have first (d : Char) (ds : List Char) (same : c :: rest = d :: ds) : d = c := by
      cases same
      rfl
    by_cases digit : isDigit c = true
    · have chars : ("n_" ++ String.ofList (c :: rest)).toList = 'n' :: '_' :: c :: rest := by simp
      have start : isIdentifierStart 'n' = true := by decide
      have underscore : isIdentifierRest '_' = true := by decide
      refine ⟨"n_" ++ String.ofList (c :: rest), by simp only [if_pos digit], ?_, ?_⟩
      · simp [String.ext_iff]
      · rw [isIdentifier, chars]
        simp only [all_cons, start, underscore, Bool.true_and]
        rw [← all_cons, all_eq_true]
        exact ⟨fun all => ⟨all, fun d ds same => .inl (first d ds same ▸ digit)⟩, And.left⟩
    · refine ⟨String.ofList (c :: rest), by simp only [if_neg digit], by simp [String.ext_iff], ?_⟩
      rw [isIdentifier, String.toList_ofList, Bool.and_eq_true, all_eq_true]
      constructor
      · rintro ⟨start, others⟩
        refine ⟨forall_mem_cons.mpr ⟨isIdentifierRest_of_start start, others⟩, ?_⟩
        exact fun d ds same => .inr (first d ds same ▸ start)
      · rintro ⟨all, start⟩
        exact ⟨(start c rest rfl).resolve_left digit, (forall_mem_cons.mp all).2⟩

theorem identifier_ne_empty (hint : String) : identifier hint ≠ "" := by
  obtain ⟨named, same, nonempty, -⟩ := identifier_eq hint
  rw [same]
  split
  · intro empty
    exact nonempty (String.append_eq_empty_iff.mp empty).1
  · exact nonempty

theorem isIdentifier_identifier_iff (hint : String)
    : isIdentifier (identifier hint) = true ↔ Spellable hint := by
  obtain ⟨named, same, nonempty, spelled⟩ := identifier_eq hint
  rw [same, ← spelled]
  split
  · rw [isIdentifier_append nonempty (by simp [Plain]; decide)]
  · exact Iff.rfl

/-- ASCII letters, digits and underscores always make an identifier. -/
theorem spellable_of_plain {hint : String} (h : Plain hint.toList) : Spellable hint := by
  have plain : Plain (words hint) := plain_trimBy (plain_joinWords false (plain_snake h))
  refine ⟨fun c member => isIdentifierRest_of_plain (plain c member), fun c rest same => ?_⟩
  have first := plain c (same ▸ mem_cons_self)
  have small := lt_of_isAsciiAlnum first
  rw [isAsciiAlnum, Bool.or_eq_true] at first
  rcases first with letter | digit
  · right
    rw [isIdentifierStart, if_pos small]
    exact letter
  · left
    simp [isDigit, isDecimal, decimalValue?, digit]

end Naming

namespace Namer

variable {n : Namer} {base : String}

/-! ### Names with numbers -/

theorem toList_numbered (base : String) (number : Nat)
    : (numbered base number).toList = base.toList ++ '_' :: Nat.toDigits 10 number := by
  rw [numbered, String.toList_append, String.toList_append, Nat.toString_eq_repr, Nat.toList_repr]
  simp

theorem numbered_injective (base : String) : Function.Injective (numbered base) := by
  intro a b same
  have chars := congrArg String.toList same
  rw [toList_numbered, toList_numbered, append_cancel_left_eq, cons.injEq] at chars
  rw [← Number.digitsNumber_toDigits a, chars.2, Number.digitsNumber_toDigits]

/-- No name that means something to the generated language ends in a digit. -/
theorem numbered_not_mem {names : List String}
    (letters : ∀ name ∈ names, name.toList.getLast?.any Text.isAsciiDigit = false) (base : String)
    (number : Nat)
    : names.contains (numbered base number) = false := by
  rw [contains_eq_mem, decide_eq_false_iff_not]
  intro member
  have last := letters _ member
  rw [toList_numbered, getLast?_append_of_ne_nil _ (cons_ne_nil _ _),
    getLast?_cons_of_ne_nil Nat.toDigits_ne_nil,
    getLast?_eq_some_getLast Nat.toDigits_ne_nil] at last
  have digit := Number.isAsciiDigit_toDigits _ (getLast_mem (@Nat.toDigits_ne_nil number 10))
  rw [Option.any_some, digit] at last
  cases last

/-- A name with a number is usable if its base is an identifier and the name is not in use. -/
theorem usable_numbered (n : Namer) (nonempty : base ≠ "") (number : Nat)
    : n.usable (numbered base number) = true
      ↔ Text.isIdentifier base = true ∧ numbered base number ∉ n.taken := by
  have same : Text.isIdentifier (numbered base number) = Text.isIdentifier base := by
    have plain := @plain_numbered "" nofun number
    rw [numbered, String.empty_append] at plain
    rw [numbered, String.append_assoc]
    exact isIdentifier_append nonempty plain
  have keyword : isKeyword (numbered base number) = false :=
    numbered_not_mem (by decide +kernel) base number
  have builtin : Naming.isBuiltin (numbered base number) = false :=
    Bool.or_eq_false_iff.mpr ⟨numbered_not_mem (by decide +kernel) base number,
      numbered_not_mem (by decide +kernel) base number⟩
  simp [usable, same, keyword, builtin]

/-! ### The search for a number -/

/-- The search gives the first number that makes the name usable, or none of those that it tries does. -/
theorem nextNumber?_cases (n : Namer) (base : String) (last tries : Nat)
    : (∃ number, n.nextNumber? base last tries = some number
        ∧ last < number ∧ number ≤ last + tries
        ∧ ∀ k, last < k → k < number → n.usable (numbered base k) = false)
      ∨ n.nextNumber? base last tries = none
        ∧ ∀ k, last < k → k ≤ last + tries → n.usable (numbered base k) = false := by
  induction tries generalizing last with
  | zero => exact .inr ⟨rfl, fun k low high => by omega⟩
  | succ tries ih =>
    rw [nextNumber?]
    split
    · exact .inl ⟨last + 1, rfl, by omega, by omega, fun k low high => by omega⟩
    · rename_i unusable
      -- The number tried here is added to those that the rest of the search passes over.
      have more {k : Nat} (low : last < k) (later : last + 1 < k → n.usable (numbered base k) = false)
          : n.usable (numbered base k) = false := by
        rcases Nat.eq_or_lt_of_le low with rfl | low
        · simpa using unusable
        · exact later low
      rcases ih (last + 1) with ⟨number, found, low, high, first⟩ | ⟨none, all⟩
      · refine .inl ⟨number, found, by omega, by omega, fun k low' high' => more low' fun later => ?_⟩
        exact first k later high'
      · refine .inr ⟨none, fun k low high => more low fun later => ?_⟩
        exact all k later (by omega)

/-- More names are tried than are in use. -/
theorem exists_free (n : Namer) (base : String) (last : Nat)
    : ∃ k, last < k ∧ k ≤ last + (n.taken.length + 1) ∧ numbered base k ∉ n.taken := by
  by_contra none
  push Not at none
  have inside : (range' (last + 1) (n.taken.length + 1)).map (numbered base) ⊆ n.taken := by
    intro name member
    obtain ⟨k, range, rfl⟩ := mem_map.mp member
    have bounds := mem_range'_1.mp range
    exact none k (by omega) (by omega)
  have distinct : (range' (last + 1) (n.taken.length + 1)).Nodup := nodup_range'
  have few := (distinct.map (numbered_injective base)).length_le_of_subset inside
  simp at few

theorem fresh?_eq (n : Namer) (hint : String)
    : n.fresh? hint
      = (n.nextNumber? (identifier hint) ((n.counters.get? (identifier hint)).getD 0)
          (n.taken.length + 1)).map fun number =>
        (numbered (identifier hint) number,
          ⟨numbered (identifier hint) number :: n.taken,
            n.counters.put (identifier hint) number⟩) := by
  unfold fresh?
  dsimp only
  generalize n.nextNumber? _ _ _ = found
  cases found <;> rfl

/-- A hint whose words make an identifier leads to a usable name that was not in use: the one with the
first such number after the last that was given out, found after at most one more try than there are
names in use. For any other hint no number makes the name usable, and there is no name.
-/
theorem fresh?_first_or_none (n : Namer) (hint : String)
    : (Text.Plain hint.toList → Naming.Spellable hint)
      ∧ (Naming.Spellable hint
        → ∃ last number name, last = (n.counters.get? (Naming.identifier hint)).getD 0
          ∧ name = numbered (Naming.identifier hint) number
          ∧ last < number ∧ number ≤ last + n.taken.length + 1
          ∧ (∀ k, last < k → k < number → n.usable (numbered (Naming.identifier hint) k) = false)
          ∧ n.usable name = true
          ∧ name ∉ n.taken
          ∧ n.fresh? hint
            = some (name, ⟨name :: n.taken, n.counters.put (Naming.identifier hint) number⟩))
      ∧ (¬Naming.Spellable hint
        → (∀ k, n.usable (numbered (Naming.identifier hint) k) = false)
          ∧ n.fresh? hint = none) := by
  have nonempty := identifier_ne_empty hint
  have search := nextNumber?_cases n (identifier hint)
    ((n.counters.get? (identifier hint)).getD 0) (n.taken.length + 1)
  refine ⟨spellable_of_plain, fun spelled => ?_, fun refused => ?_⟩
  · have identifier := (isIdentifier_identifier_iff hint).mpr spelled
    rcases search with ⟨number, found, low, high, first⟩ | ⟨_, all⟩
    · have usable := usable_of_nextNumber? found
      refine ⟨_, number, _, rfl, rfl, low, by omega, first, usable, not_mem_of_usable usable, ?_⟩
      rw [fresh?_eq, found, Option.map_some]
    · obtain ⟨k, low, high, free⟩ := exists_free n (Naming.identifier hint)
        ((n.counters.get? (Naming.identifier hint)).getD 0)
      have usable := (usable_numbered n nonempty k).mpr ⟨identifier, free⟩
      rw [all k low high] at usable
      cases usable
  · have none (k : Nat) : n.usable (numbered (identifier hint) k) = false := by
      rw [← Bool.not_eq_true, usable_numbered n nonempty]
      exact fun usable => refused ((isIdentifier_identifier_iff hint).mp usable.1)
    refine ⟨none, ?_⟩
    rcases search with ⟨number, found, _⟩ | ⟨missing, _⟩
    · have usable := usable_of_nextNumber? found
      rw [none number] at usable
      cases usable
    · rw [fresh?_eq, missing, Option.map_none]

/-- A fraction is a word character, so this is an id; but no identifier has one, and the search for a
name never ends.
-/
theorem fresh?_half
    : Name.isId "a½" = true
      ∧ (∀ k, usable {} (numbered (Naming.identifier "a½") k) = false)
      ∧ fresh? {} "a½" = none := by
  have refused : ¬Spellable "a½" := by
    intro spelled
    have member : '½' ∈ words "a½" := by decide +kernel
    have fraction : Text.isIdentifierRest '½' = false := by decide +kernel
    rw [spelled.1 '½' member] at fraction
    cases fraction
  exact ⟨by decide +kernel, (fresh?_first_or_none {} "a½").2.2 refused⟩

end Namer

end Fxml
