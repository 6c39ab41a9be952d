import Fxml.Proofs.Number.Numeral
import Fxml.Proofs.Planning.Registration

/-! The variables of ids. An id that expressions can name is spelled with ASCII letters, digits and
underscores, and so is its variable, which is no keyword.
-/

open List

namespace Fxml

namespace Text

variable {c : Char} {cs : List Char} {s : String}

/-! ### Plain text -/

/-- Text of ASCII letters, digits and underscores. -/
def Plain (cs : List Char) : Prop := ∀ c ∈ cs, isAsciiAlnum c = true

theorem plain_nil : Plain [] := forall_mem_nil _

theorem plain_cons : Plain (c :: cs) ↔ isAsciiAlnum c = true ∧ Plain cs :=
  forall_mem_cons

theorem plain_append {ds : List Char} : Plain (cs ++ ds) ↔ Plain cs ∧ Plain ds :=
  forall_mem_append

theorem plain_of_isName (h : isName cs = true) : Plain cs := by
  cases cs with
  | nil => cases h
  | cons c rest =>
    rw [isName, Bool.and_eq_true, all_eq_true] at h
    exact plain_cons.mpr ⟨by simp [isAsciiAlnum, h.1], h.2⟩

theorem lt_of_isAsciiAlnum (h : isAsciiAlnum c = true) : c.toNat < 128 := by
  simp only [isAsciiAlnum, isAsciiAlpha, isAsciiLower, isAsciiUpper, isAsciiDigit, Bool.or_eq_true,
    Bool.and_eq_true, decide_eq_true_eq, beq_iff_eq, Char.le_def, UInt32.le_iff_toNat_le] at h
  rcases h with ((⟨_, h⟩ | ⟨_, h⟩) | rfl) | ⟨_, h⟩
  · exact Nat.lt_of_le_of_lt h (by decide)
  · exact Nat.lt_of_le_of_lt h (by decide)
  · decide
  · exact Nat.lt_of_le_of_lt h (by decide)

theorem isAsciiAlnum_toLower (h : isAsciiAlnum c = true) : isAsciiAlnum c.toLower = true := by
  have all : ∀ n < 128, isAsciiAlnum (Char.ofNat n) = true → isAsciiAlnum (Char.ofNat n).toLower = true := by
    decide
  have lowered := all c.toNat (lt_of_isAsciiAlnum h)
  rw [Char.ofNat_toNat] at lowered
  exact lowered h

theorem plain_lowerFrom (before : List Char) (h : Plain cs) : Plain (lowerFrom before cs) := by
  induction cs generalizing before with
  | nil => exact plain_nil
  | cons c rest ih =>
    obtain ⟨first, others⟩ := plain_cons.mp h
    have small := lt_of_isAsciiAlnum first
    have noSigma : c ≠ 'Σ' := by
      rintro rfl
      simp at small
    rw [lowerFrom, lowerIn, if_neg noSigma, lowerChar, if_pos small]
    exact plain_cons.mpr ⟨isAsciiAlnum_toLower first, ih (c :: before) others⟩

theorem plain_lower (h : Plain s.toList) : Plain (lower s).toList := by
  rw [lower, String.toList_ofList]
  exact plain_lowerFrom [] h

theorem plain_trimBy {p : Char → Bool} (h : Plain cs) : Plain (trimBy p cs) := by
  intro c member
  rw [trimBy, mem_reverse] at member
  have kept := (dropWhile_sublist p).mem member
  exact h c ((dropWhile_sublist p).mem (mem_reverse.mp kept))

theorem isName_of_isIdentifier (plain : Plain s.toList) (h : isIdentifier s = true)
    : isName s.toList = true := by
  unfold isIdentifier at h
  split at h
  · cases h
  · rename_i c rest chars
    rw [chars] at plain ⊢
    obtain ⟨first, others⟩ := plain_cons.mp plain
    rw [Bool.and_eq_true, isIdentifierStart, if_pos (lt_of_isAsciiAlnum first)] at h
    rw [isName, Bool.and_eq_true, all_eq_true]
    exact ⟨h.1, others⟩

end Text

namespace Naming

open Text

variable {cs : List Char} {name : String}

/-! ### Styles -/

theorem plain_breakBeforeWords (inWord : Bool) (h : Plain cs)
    : Plain (breakBeforeWords inWord cs) := by
  fun_induction breakBeforeWords inWord cs with
  | case1 inWord c upper lower rest _ ih =>
    obtain ⟨first, others⟩ := plain_cons.mp h
    exact plain_cons.mpr ⟨first, ih others⟩
  | case2 inWord c upper lower rest _ _ ih =>
    obtain ⟨first, others⟩ := plain_cons.mp h
    obtain ⟨second, others⟩ := plain_cons.mp others
    exact plain_cons.mpr ⟨first, plain_cons.mpr ⟨rfl, plain_cons.mpr ⟨second, ih others⟩⟩⟩
  | case3 inWord c upper lower rest _ _ ih =>
    obtain ⟨first, others⟩ := plain_cons.mp h
    exact plain_cons.mpr ⟨first, ih others⟩
  | case4 => exact h

theorem plain_breakBeforeCapitals (h : Plain cs) : Plain (breakBeforeCapitals cs) := by
  fun_induction breakBeforeCapitals cs with
  | case1 c next rest _ ih =>
    obtain ⟨first, others⟩ := plain_cons.mp h
    exact plain_cons.mpr ⟨first, plain_cons.mpr ⟨rfl, ih others⟩⟩
  | case2 c next rest _ ih =>
    obtain ⟨first, others⟩ := plain_cons.mp h
    exact plain_cons.mpr ⟨first, ih others⟩
  | case3 => exact h

theorem plain_dropUnderscore (h : Plain cs) : Plain (dropUnderscore cs) := by
  unfold dropUnderscore
  split
  · exact (plain_cons.mp h).2
  · exact h

theorem plain_snake (h : Plain name.toList) : Plain (snake name).toList := by
  have dropped := plain_dropUnderscore h
  unfold snake
  dsimp only
  split
  · exact plain_lower (by rwa [String.toList_ofList])
  · refine plain_lower ?_
    rw [String.toList_ofList]
    exact plain_breakBeforeCapitals (plain_breakBeforeWords false dropped)

/-- Whatever belongs to no word becomes an underscore. -/
theorem plain_joinWords (inRun : Bool) (h : Plain cs) : Plain (joinWords inRun cs) := by
  induction cs generalizing inRun with
  | nil => exact plain_nil
  | cons c rest ih =>
    obtain ⟨first, others⟩ := plain_cons.mp h
    rw [joinWords]
    split
    · exact plain_cons.mpr ⟨first, ih false others⟩
    split
    · exact ih true others
    · exact plain_cons.mpr ⟨rfl, ih true others⟩

theorem plain_identifier (h : Plain name.toList) : Plain (identifier name).toList := by
  have words : Plain (trimBy (· == '_') (joinWords false (snake name).toList)) :=
    plain_trimBy (plain_joinWords false (plain_snake h))
  have letter : Plain "n_".toList := by simp [Plain]; decide
  have ending {word : String} (plain : Plain word.toList)
      : Plain (if isKeyword word then word ++ "_" else word).toList := by
    split
    · rw [String.toList_append]
      exact plain_append.mpr ⟨plain, by simp [Plain]; decide⟩
    · exact plain
  unfold identifier
  cases chars : trimBy (· == '_') (joinWords false (snake name).toList) with
  | nil => exact ending letter
  | cons c rest =>
    rw [chars] at words
    refine ending ?_
    dsimp only
    split
    · rw [String.toList_append]
      exact plain_append.mpr ⟨letter, by rwa [String.toList_ofList]⟩
    · rwa [String.toList_ofList]

end Naming

namespace Namer

open Text

theorem plain_numbered {base : String} (h : Plain base.toList) (number : Nat)
    : Plain (numbered base number).toList := by
  have digits : Plain (toString number).toList := by
    intro c member
    rw [Nat.toString_eq_repr, Nat.toList_repr] at member
    have digit := Number.isAsciiDigit_toDigits c member
    simp [isAsciiAlnum, digit]
  rw [numbered, String.toList_append, String.toList_append]
  exact plain_append.mpr ⟨plain_append.mpr ⟨h, by simp [Plain]; decide⟩, digits⟩

/-- A usable name that is plain is a name of the expression language and no keyword. -/
theorem isName_of_usable {n : Namer} {name : String} (usable : n.usable name = true)
    (plain : Plain name.toList)
    : isName name.toList = true ∧ Naming.isKeyword name = false := by
  simp only [Namer.usable, Bool.and_eq_true, Bool.not_eq_true'] at usable
  exact ⟨isName_of_isIdentifier plain usable.1.1.1, usable.1.1.2⟩

end Namer

namespace Planning

/-- The variables of ids that expressions can name can be named too. -/
def Nameable (registry : Table Entry) : Prop :=
  ∀ id entry, registry.get? id = some entry → Text.isName id.toList = true
    → Text.isName entry.var.toList = true ∧ Naming.isKeyword entry.var = false

theorem Nameable.put {registry : Table Entry} (h : Nameable registry) {id : String} {entry : Entry}
    (new : Text.Plain id.toList
      → Text.isName entry.var.toList = true ∧ Naming.isKeyword entry.var = false)
    : Nameable (registry.put id entry) := by
  intro id' entry' found named
  rw [Table.get?_put] at found
  split at found
  · rename_i same
    cases found
    exact new (same ▸ Text.plain_of_isName named)
  · exact h id' entry' found named

theorem Nameable.run {nodes : List Node} {r r' : Registration} (h : Nameable r.registry)
    (run : nodes.foldlM register r = .ok r')
    : Nameable r'.registry := by
  refine of_foldlM_ok (motive := fun _ r => Nameable r.registry)
    (fun {_ r node r'} h step => ?_) [] h run
  cases registers_of_ok step with
  | unnamed | refused => exact h
  | accepted declares absent usable taken made =>
    refine h.put fun plain => Namer.isName_of_usable usable ?_
    rcases made with rfl | ⟨_, number, rfl⟩
    · exact plain
    · exact Namer.plain_numbered (Naming.plain_identifier plain) number

end Planning

/-- The variable of an id that expressions can name is a name, too, and no keyword. -/
theorem Document.nameable_ids (document : Document) (reserved : List String)
    : Planning.Nameable (document.ids reserved) := by
  have start : Planning.Nameable [] := nofun
  unfold Document.ids
  dsimp only
  split
  · rename_i r run
    exact start.run run
  · exact start

end Fxml
