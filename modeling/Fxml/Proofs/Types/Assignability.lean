import Fxml.Proofs.Types.Inheritance

/-! When a value of one type may stand where another is declared. In a catalog this is a preorder
but for types that extend a primitive type.
-/

open Fxml.TypeName

namespace Fxml.TypeSource

open Catalog

variable {d : TypeDescriptor}

/-! ### The relation -/

/-- The name of a single type: no list of others and no map. -/
def Plain (name : String) : Prop := listItem? name = none ∧ mapTypes? name = none

/-- The ways in which a value of one type may stand where another is declared. -/
inductive Assignable (source : TypeSource) : String → String → Prop
  | refl (a : String) : Assignable source a a
  | object (a : String) : Assignable source a "object"
  | widen {a : String} (whole : a = "int" ∨ a = "bool") : Assignable source a "float"
  | list {a b x y : String} (value : listItem? a = some x)
      (target : listItem? b = some y) (items : Assignable source x y)
      : Assignable source a b
  | map {a b : String} (value : listItem? a = none ∧ (mapTypes? a).isSome)
      (target : listItem? b = none ∧ (mapTypes? b).isSome)
      : Assignable source a b
  | base {a b : String} {d : TypeDescriptor} (value : Plain a) (target : Plain b)
      (described : source.describe a = some d) (above : b ∈ d.bases)
      : Assignable source a b

variable {types full : Table TypeDescriptor} {source : TypeSource} {a b c : String}

theorem isAssignable_of_assignable (h : Assignable source a b)
    : source.isAssignable b a = true := by
  induction h with
  | refl a =>
    unfold isAssignable
    simp
  | object a =>
    unfold isAssignable
    simp
  | widen whole =>
    unfold isAssignable
    rcases whole with rfl | rfl <;> simp
  | list value target _ ih =>
    unfold isAssignable
    split_ifs
    · rfl
    · rfl
    · split <;> simp_all
  | map value target =>
    unfold isAssignable
    split_ifs
    · rfl
    · rfl
    · split <;> simp_all
      split <;> simp_all
  | base value target described above =>
    unfold isAssignable
    split_ifs
    · rfl
    · rfl
    · split <;> simp_all [Plain]

theorem assignable_of_isAssignable : source.isAssignable b a = true → Assignable source a b := by
  fun_induction isAssignable source b a with
  | case1 b a same =>
    intro _
    rcases (Bool.or_eq_true ..).mp same with same | top
    · cases beq_iff_eq.mp same
      exact .refl b
    · cases beq_iff_eq.mp top
      exact .object a
  | case2 b a _ widens =>
    intro _
    obtain ⟨top, whole⟩ := (Bool.and_eq_true ..).mp widens
    cases beq_iff_eq.mp top
    exact .widen (by simpa using whole)
  | case3 b a _ _ y x target value _ ih => exact fun items => .list value target (ih items)
  | case6 b a _ _ noTarget noValue x y value target =>
    intro _
    refine .map ⟨noValue, ?_⟩ ⟨noTarget, ?_⟩
    · simp [value]
    · simp [target]
  | case9 b a _ _ noTarget noValue noMap noMap' =>
    intro found
    obtain ⟨d, described, above⟩ := (Option.any_eq_true ..).mp found
    exact .base ⟨noValue, noMap⟩ ⟨noTarget, noMap'⟩ described (by simpa using above)
  | _ => nofun

theorem isAssignable_iff : source.isAssignable b a = true ↔ Assignable source a b :=
  ⟨assignable_of_isAssignable, isAssignable_of_assignable⟩

/-! ### Chains -/

/-- What a primitive type widens to, `object` apart. -/
def Widens (b c : String) : Prop := b = "int" ∧ c = "float" ∨ b = "bool" ∧ (c = "int" ∨ c = "float")

theorem Widens.ends (h : Widens b c) : Plain b ∧ Plain c ∧ isPrimitive c = true ∧ c ≠ "object" := by
  rcases h with ⟨rfl, rfl⟩ | ⟨rfl, rfl | rfl⟩ <;>
    exact ⟨⟨by decide, by decide⟩, ⟨by decide, by decide⟩, by decide, by decide⟩

/-- A chain of two steps that is no step: a type of the catalog extends a primitive type but not what
that widens to, or lists of such types.
-/
inductive Gap (source : TypeSource) : String → String → String → Prop
  | base {a b c : String} {d : TypeDescriptor} (plain : Plain a)
      (own : isPrimitive a = false) (described : source.describe a = some d)
      (above : b ∈ d.bases) (widens : Widens b c) (beyond : c ∉ d.bases)
      : Gap source a b c
  | list {a b c x y z : String} (first : listItem? a = some x)
      (middle : listItem? b = some y) (last : listItem? c = some z)
      (items : Gap source x y z)
      : Gap source a b c

theorem not_assignable_of_gap (gap : Gap source a b c) : ¬Assignable source a c := by
  induction gap with
  | base plain own described above widens beyond =>
    intro step
    obtain ⟨_, _, primitive, proper⟩ := widens.ends
    cases step with
    | refl => exact nomatch own.symm.trans primitive
    | object => exact proper rfl
    | widen whole => rcases whole with rfl | rfl <;> exact nomatch own
    | list value => exact nomatch plain.1.symm.trans value
    | map value => exact nomatch plain.2 ▸ value.2
    | base _ _ described' above' =>
      cases described.symm.trans described'
      exact beyond above'
  | list first middle last _ ih =>
    intro step
    cases step with
    | refl =>
      cases first.symm.trans last
      exact ih (.refl _)
    | object => exact nomatch last
    | widen => exact nomatch last
    | list value target items =>
      cases first.symm.trans value
      cases last.symm.trans target
      exact ih items
    | map value => exact nomatch first.symm.trans value.1
    | base value => exact nomatch first.symm.trans value.1

/-- What a catalog says of a name is fixed for primitive types and in the table for others. -/
theorem describe_source (h : (Catalog.source full).describe a = some d)
    : (isPrimitive a = true ∧ ∀ base ∈ d.bases, base = "object" ∨ a = "bool" ∧ base = "int")
      ∨ isPrimitive a = false ∧ full.get? a = some d := by
  unfold Catalog.source at h
  dsimp only at h
  split at h
  · rename_i primitive
    cases h
    refine .inl ⟨primitive, ?_⟩
    have names : a = "str" ∨ a = "int" ∨ a = "float" ∨ a = "bool" ∨ a = "object" := by
      simpa [isPrimitive, primitives] using primitive
    rcases names with rfl | rfl | rfl | rfl | rfl <;> decide
  · rename_i other
    exact .inr ⟨by simpa using other, h⟩

theorem assignable_or_gap (plain : Plain a) (own : isPrimitive a = false)
    (described : source.describe a = some d) (above : b ∈ d.bases) (widens : Widens b c)
    : Assignable source a c ∨ Gap source a b c := by
  by_cases reached : c ∈ d.bases
  · exact .inl (.base plain widens.ends.2.1 described reached)
  · exact .inr (.base plain own described above widens reached)

/-- Behind an ancestor come its own ancestors; a primitive one widens. -/
theorem assignable_of_bases (built : inheritAll types = .ok full) {e : TypeDescriptor}
    (plain : Plain a) (last : Plain c) (first : (Catalog.source full).describe a = some d)
    (above : b ∈ d.bases) (second : (Catalog.source full).describe b = some e)
    (beyond : c ∈ e.bases)
    : Assignable (Catalog.source full) a c ∨ Gap (Catalog.source full) a b c := by
  rcases describe_source second with ⟨primitive, fixed⟩ | ⟨ownB, foundB⟩
  · rcases fixed c beyond with rfl | ⟨rfl, rfl⟩
    · exact .inl (.object a)
    · rcases describe_source first with ⟨_, fixed⟩ | ⟨own, _⟩
      · exact absurd (fixed "bool" above) (by simp)
      · exact assignable_or_gap plain own first above (.inr ⟨rfl, .inl rfl⟩)
  · rcases describe_source first with ⟨_, fixed⟩ | ⟨own, found⟩
    · rcases fixed b above with rfl | ⟨_, rfl⟩ <;> exact nomatch ownB
    · refine .inl (.base plain last first ((mem_bases_iff built found).mpr ?_))
      rcases (mem_bases_iff built found).mp above with chain | rfl
      · exact ((mem_bases_iff built foundB).mp beyond).imp_left chain.trans
      · exact nomatch ownB

/-- Two steps are one, but for the gaps that primitive bases leave. -/
theorem assignable_trans (built : inheritAll types = .ok full)
    (first : Assignable (Catalog.source full) a b) (second : Assignable (Catalog.source full) b c)
    : Assignable (Catalog.source full) a c ∨ Gap (Catalog.source full) a b c := by
  induction second generalizing a with
  | refl b => exact .inl first
  | object b => exact .inl (.object a)
  | @widen b whole =>
    have widens : Widens b "float" := by
      rcases whole with rfl | rfl
      · exact .inl ⟨rfl, rfl⟩
      · exact .inr ⟨rfl, .inr rfl⟩
    have plain := widens.ends.1
    cases first with
    | refl => exact .inl (.widen whole)
    | object => rcases whole with same | same <;> exact nomatch same
    | widen => rcases whole with same | same <;> exact nomatch same
    | list _ target => exact nomatch plain.1.symm.trans target
    | map _ target => exact nomatch plain.2 ▸ target.2
    | base value _ described above =>
      -- The bases of a primitive type are known; a type of the table may have a primitive base.
      rcases describe_source described with ⟨_, fixed⟩ | ⟨own, _⟩
      · rcases fixed b above with rfl | ⟨rfl, _⟩
        · rcases whole with same | same <;> exact nomatch same
        · exact .inl (.widen (.inr rfl))
      · exact assignable_or_gap value own described above widens
  | @list b c y z middle last items ih =>
    cases first with
    | refl => exact .inl (.list middle last items)
    | object => exact nomatch middle
    | widen => exact nomatch middle
    | list value target steps =>
      cases middle.symm.trans target
      exact (ih steps).imp (.list value last) (.list value middle last)
    | map _ target => exact nomatch middle.symm.trans target.1
    | base _ target => exact nomatch middle.symm.trans target.1
  | @map b c middle last =>
    cases first with
    | refl => exact .inl (.map middle last)
    | object => exact nomatch middle.2
    | widen => exact nomatch middle.2
    | list _ target => exact nomatch middle.1.symm.trans target
    | map value => exact .inl (.map value last)
    | base _ target => exact nomatch target.2 ▸ middle.2
  | @base b c e middle last described above =>
    cases first with
    | refl => exact .inl (.base middle last described above)
    | object =>
      rcases describe_source described with ⟨_, fixed⟩ | ⟨own, _⟩
      · rcases fixed c above with rfl | ⟨same, _⟩
        · exact .inl (.object _)
        · exact nomatch same
      · exact nomatch own
    | widen =>
      rcases describe_source described with ⟨_, fixed⟩ | ⟨own, _⟩
      · rcases fixed c above with rfl | ⟨same, _⟩
        · exact .inl (.object _)
        · exact nomatch same
      · exact nomatch own
    | list _ target => exact nomatch middle.1.symm.trans target
    | map _ target => exact nomatch middle.2 ▸ target.2
    | base value _ first below => exact assignable_of_bases built value last first below described above

/-- In a catalog every type may stand for itself, and two steps are one exactly where no gap is between
them.
-/
theorem isAssignable_preorder_but_gaps (built : inheritAll types = .ok full)
    : (∀ a, (Catalog.source full).isAssignable a a = true)
      ∧ ∀ a b c, (Catalog.source full).isAssignable b a = true
        → (Catalog.source full).isAssignable c b = true
        → ((Catalog.source full).isAssignable c a = false ↔ Gap (Catalog.source full) a b c) := by
  refine ⟨fun a => isAssignable_iff.mpr (.refl a), fun a b c first second => ?_⟩
  rw [← Bool.not_eq_true, isAssignable_iff]
  rcases assignable_trans built (isAssignable_iff.mp first) (isAssignable_iff.mp second)
    with step | gap
  · exact iff_of_false (not_not_intro step) fun gap => not_assignable_of_gap gap step
  · exact iff_of_true (not_assignable_of_gap gap) gap

/-- A count is a whole number by its declaration. -/
def counts : Table TypeDescriptor :=
  [("ui.Count", { TypeDescriptor.blank "ui.Count" with bases := ["int"] })]

/-- A whole number may stand for a floating-point number, and a count for a whole number, but no count
for a floating-point number.
-/
theorem isAssignable_counts
    : ∃ full, inheritAll counts = .ok full
      ∧ (Catalog.source full).isAssignable "int" "ui.Count" = true
      ∧ (Catalog.source full).isAssignable "float" "int" = true
      ∧ (Catalog.source full).isAssignable "float" "ui.Count" = false := by
  have step : Extends counts "ui.Count" "int" := ⟨_, rfl, by decide⟩
  obtain ⟨full, built⟩ := exists_of_acyclic
    (acyclic_of_rank (fun name => if name = "ui.Count" then 1 else 0)
      (by decide : ∀ entry ∈ counts, _))
  obtain ⟨d, found, whole⟩ :=
    complete_of_inheritAll built (by decide : "ui.Count" ∈ counts.keys) (by decide)
  have plain : Plain "ui.Count" := ⟨by decide, by decide⟩
  have above : "int" ∈ d.bases := (whole.bases _).mpr (.inl (.single step))
  have beyond : "float" ∉ d.bases := by
    intro there
    obtain ⟨base, ⟨own, here, listed⟩, chain⟩ :=
      Relation.TransGen.head'_iff.mp (((whole.bases _).mp there).resolve_right (by decide))
    cases here
    cases List.mem_singleton.mp listed
    exact nomatch eq_of_reflTransGen_absent rfl chain
  have first : (Catalog.source full).isAssignable "int" "ui.Count" = true :=
    isAssignable_iff.mpr (.base plain ⟨by decide, by decide⟩ found above)
  have second : (Catalog.source full).isAssignable "float" "int" = true :=
    isAssignable_iff.mpr (.widen (.inl rfl))
  refine ⟨full, built, first, second, ?_⟩
  exact ((isAssignable_preorder_but_gaps built).2 _ _ _ first second).mpr
    (.base plain rfl found above (.inl ⟨rfl, rfl⟩) beyond)

end Fxml.TypeSource
