import Mathlib.Data.List.Induction
import Mathlib.Data.Prod.Lex
import Fxml.Planning.Construction
import Fxml.Proofs.Table

/-! The choice among constructors: an element is made by the first of the best that fit, which takes
what is kept for it and the properties that it has parameters for.
-/

open List Fxml.Table Fxml.Planning.Draft Option

namespace Fxml.Planning

variable {d : Draft} {c chosen : Constructor} {name : String}

/-! ### What a constructor is given -/

/-- Of the steps that set a property the first counts, unless there is a value to start with. -/
theorem get?_foldl_step (name : String) (steps : List Step) (start : Table Source)
    : get? (steps.foldl (fun offered step =>
          if offered.contains step.target then offered
          else offered ++ [(step.target, step.source)]) start) name
      = (start.get? name).or ((steps.find? (·.target == name)).map (·.source)) := by
  induction steps generalizing start with
  | nil => simp
  | cons step rest ih =>
    rw [foldl_cons, ih]
    by_cases same : step.target = name
    · subst same
      rw [find?_cons_of_pos (by simp)]
      split
      · rename_i there
        obtain ⟨value, found⟩ := isSome_iff_exists.mp there
        simp [found]
      · rename_i absent
        have none_found : start.get? step.target = none := by
          simpa [Table.contains] using absent
        rw [none_found, get?, lookup_append,
          show start.lookup step.target = none from none_found]
        simp
    · rw [find?_cons_of_neg (by simpa using same)]
      split
      · rfl
      · rw [Table.get?, lookup_append, Table.lookup_cons, if_neg (Ne.symm same)]
        simp [get?]

theorem get?_map_source (name : String) (pending : Table (Source × Option Position))
    : get? (pending.map fun entry => (entry.1, entry.2.1)) name
      = (pending.get? name).map Prod.fst := by
  induction pending with
  | nil => rfl
  | cons entry rest ih =>
    obtain ⟨key, source, place⟩ := entry
    simp only [Table.get?, map_cons, Table.lookup_cons] at ih ⊢
    split
    · rfl
    · exact ih

/-- A constructor is offered what is kept for it, else the first value that a property is set to. -/
theorem get?_offered (d : Draft) (name : String)
    : d.offered.get? name
      = ((d.pending.get? name).map Prod.fst).or
          ((d.steps.find? fun step => isSetter step && step.target == name).map (·.source)) := by
  rw [offered, get?_foldl_step, find?_filter]
  simp only [Bool.decide_and, Bool.decide_eq_true]
  exact congrArg (Option.or · _) (get?_map_source name _)

/-- A value is kept for construction under the name, or a property of the name is set. -/
def Draft.Given (d : Draft) (name : String) : Prop :=
  name ∈ d.pending.keys ∨ ∃ step ∈ d.steps, step.kind = .set ∧ step.target = name

instance : Decidable (d.Given name) := inferInstanceAs (Decidable (_ ∨ _))

theorem contains_offered : d.offered.contains name = true ↔ d.Given name := by
  unfold Table.contains Draft.Given
  rw [get?_offered, isSome_or, Bool.or_eq_true, isSome_map, get?_isSome_iff]
  simp [isSetter]

/-- A constructor takes all that is kept for it and is given all that it requires. -/
def Draft.Fits (d : Draft) (c : Constructor) : Prop :=
  (∀ name ∈ d.pending.keys, name ∈ c.params.map (·.name))
    ∧ ∀ param ∈ c.params, param.hasDefault = false → d.Given param.name

theorem isEligible_iff : d.isEligible c = true ↔ d.Fits c := by
  simp [isEligible, Fits, Constructor.required, contains_offered, or_iff_not_imp_left]

/-! ### The best constructor -/

/-- How many parameters are left to their defaults, then how many steps still set a property. -/
def Draft.cost (d : Draft) (c : Constructor) : ℕ ×ₗ ℕ :=
  toLex (c.params.countP fun param => ¬d.Given param.name,
    d.steps.countP fun step => step.kind = .set ∧ step.target ∉ c.params.map (·.name))

theorem toLex_rank (d : Draft) (c : Constructor) : toLex (d.rank c) = d.cost c := by
  have params := c.params.length_eq_countP_add_countP (d.offered.contains ·.name)
  refine congrArg toLex (Prod.ext ?_ ?_)
  · have defaults : c.params.countP (fun param => ¬d.Given param.name)
        = c.params.countP fun param => ¬d.offered.contains param.name = true :=
      countP_congr fun param _ => by simp [contains_offered]
    simp only [rank, length_map, ← countP_eq_length_filter, defaults]
    omega
  · rw [rank, ← countP_eq_length_filter]
    refine countP_congr fun step member => ?_
    have given (set : step.kind = .set) : d.Given step.target := .inr ⟨step, member, set, rfl⟩
    simp [isSetter, contains_offered]
    grind

theorem isBetter_iff {a b : ℕ × ℕ} : isBetter a b = true ↔ toLex a < toLex b := by
  simp [isBetter, Prod.Lex.toLex_lt_toLex]

/-- The better of two constructors, the first of equals. -/
def Draft.better (d : Draft) (best : Option Constructor) (c : Constructor) : Option Constructor :=
  match best with
  | some b => if isBetter (d.rank c) (d.rank b) then some c else some b
  | none => some c

theorem bestConstructor?_eq (d : Draft)
    : d.bestConstructor? = (d.descriptor.constructors.filter d.isEligible).foldl d.better none :=
  rfl

/-- The constructor is cheaper than those before it and not dearer than those after it, as far as they
count.
-/
def Draft.IsBest (d : Draft) (constructors : List Constructor) (counts : Constructor → Prop)
    (best : Constructor)
    : Prop :=
  ∃ before after,
    constructors = before ++ best :: after
    ∧ (∀ c ∈ before, counts c → d.cost best < d.cost c)
    ∧ ∀ c ∈ after, counts c → d.cost best ≤ d.cost c

theorem foldl_better (d : Draft) (constructors : List Constructor)
    : (constructors.foldl d.better none = none → constructors = [])
      ∧ ∀ best, constructors.foldl d.better none = some best
        → d.IsBest constructors (fun _ => True) best := by
  induction constructors using reverseRecOn with
  | nil => exact ⟨fun _ => rfl, nofun⟩
  | append_singleton constructors last ih =>
    rw [foldl_append, foldl_cons, foldl_nil]
    cases found : constructors.foldl d.better none with
    | none =>
      rw [ih.1 found]
      refine ⟨nofun, fun best same => ?_⟩
      cases same
      exact ⟨[], [], rfl, nofun, nofun⟩
    | some first =>
      obtain ⟨before, after, rfl, dearer, others⟩ := ih.2 first found
      unfold better
      dsimp only
      split
      · rename_i better
        rw [isBetter_iff, toLex_rank, toLex_rank] at better
        refine ⟨nofun, fun best same => ?_⟩
        cases same
        refine ⟨before ++ first :: after, [], rfl, fun c member _ => ?_, nofun⟩
        rcases mem_append.mp member with earlier | later
        · exact better.trans (dearer c earlier trivial)
        · rcases mem_cons.mp later with rfl | later
          · exact better
          · exact better.trans_le (others c later trivial)
      · rename_i worse
        rw [isBetter_iff, toLex_rank, toLex_rank, not_lt] at worse
        refine ⟨nofun, fun best same => ?_⟩
        cases same
        refine ⟨before, after ++ [last], by simp, dearer, fun c member _ => ?_⟩
        rcases mem_append.mp member with later | new
        · exact others c later trivial
        · cases mem_singleton.mp new
          exact worse

theorem not_fits_of_none (h : d.bestConstructor? = none) : ∀ c ∈ d.descriptor.constructors, ¬d.Fits c := by
  intro c member fits
  have none_left := (foldl_better d _).1 h
  exact filter_eq_nil_iff.mp none_left c member (isEligible_iff.mpr fits)

theorem best_of_some (h : d.bestConstructor? = some chosen)
    : d.Fits chosen ∧ d.IsBest d.descriptor.constructors d.Fits chosen := by
  obtain ⟨before, after, split, dearer, others⟩ := (foldl_better d _).2 chosen h
  obtain ⟨front, back, whole, rfl, tail⟩ := filter_eq_append_iff.mp split
  obtain ⟨skipped, rest, rfl, unfit, eligible, rfl⟩ := filter_eq_cons_iff.mp tail
  refine ⟨isEligible_iff.mp eligible, front ++ skipped, rest, by simp [whole], ?_, ?_⟩
  · intro c member fits
    have eligible := isEligible_iff.mpr fits
    rcases mem_append.mp member with earlier | passed
    · exact dearer c (mem_filter.mpr ⟨earlier, eligible⟩) trivial
    · exact (unfit c passed eligible).elim
  · intro c member fits
    exact others c (mem_filter.mpr ⟨member, isEligible_iff.mpr fits⟩) trivial

/-! ### What the chosen constructor takes -/

/-- A constructor takes, in the order of its parameters, what is kept for it or the first value that
a property is set to. The steps that set these properties are gone, and nothing else changes.
-/
structure Passes (d : Draft) (c : Constructor) (d' : Draft) : Prop where
  names : d'.element.args.map Prod.fst = (c.params.map (·.name)).filter (d.Given ·)
  values : ∀ name source, (name, source) ∈ d'.element.args →
    (∃ place, d.pending.get? name = some (source, place))
      ∨ name ∉ d.pending.keys ∧ ∃ before step after, d.steps = before ++ step :: after
        ∧ (step.kind = .set ∧ step.target = name ∧ step.source = source)
        ∧ ∀ earlier ∈ before, ¬(earlier.kind = .set ∧ earlier.target = name)
  steps : d'.steps
    = d.steps.filter fun step => ¬(step.kind = .set ∧ step.target ∈ c.params.map (·.name))
  rest : d' = { d with
    element := { d.element with strategy := .construct, args := d'.element.args }
    steps := d'.steps }

theorem map_fst_args (d : Draft) (params : List Param)
    : (params.filterMap fun param => (d.offered.get? param.name).map (param.name, ·)).map Prod.fst
      = (params.map (·.name)).filter (d.Given ·) := by
  induction params with
  | nil => rfl
  | cons param rest ih =>
    have given : _ ↔ d.Given param.name := contains_offered
    unfold Table.contains at given
    rw [map_cons, filter_cons, filterMap_cons, ← ih]
    cases found : d.offered.get? param.name <;> simp_all

theorem passes_construct (d : Draft) (c : Constructor) : Passes d c (d.construct c) where
  names := map_fst_args d c.params
  values := by
    intro name source passed
    obtain ⟨param, _, found⟩ := mem_filterMap.mp passed
    obtain ⟨value, offered, pair⟩ := map_eq_some_iff.mp found
    cases pair
    rw [get?_offered, or_eq_some_iff] at offered
    rcases offered with kept | ⟨absent, set⟩
    · obtain ⟨⟨_, place⟩, held, rfl⟩ := map_eq_some_iff.mp kept
      exact .inl ⟨place, held⟩
    · obtain ⟨step, first, rfl⟩ := map_eq_some_iff.mp set
      obtain ⟨sets, before, after, split, others⟩ := find?_eq_some_iff_append.mp first
      refine .inr ⟨get?_eq_none_iff.mp (map_eq_none_iff.mp absent),
        before, step, after, split, ?_, fun earlier member => ?_⟩
      · simpa [isSetter] using sets
      · simpa [isSetter, imp_iff_not_or] using others earlier member
  steps := by
    refine filter_congr fun step member => ?_
    have given (set : step.kind = .set) : d.Given step.target := .inr ⟨step, member, set, rfl⟩
    rw [map_fst_args]
    simp [isSetter]
    grind
  rest := rfl

/-- Exactly where no constructor fits there is none to take. Otherwise the first of the cheapest ones
is taken, and passed each value that it has a parameter for, once for each such parameter.
-/
theorem useConstructor_cheapest (d : Draft)
    : (d.bestConstructor? = none ↔ ∀ c ∈ d.descriptor.constructors, ¬d.Fits c)
      ∧ ∀ chosen, d.bestConstructor? = some chosen →
        d.Fits chosen
        ∧ d.IsBest d.descriptor.constructors d.Fits chosen
        ∧ useConstructor d = pure (some (d.construct chosen))
        ∧ Passes d chosen (d.construct chosen)
        ∧ ∀ name, d.Given name → ((d.construct chosen).element.args.map Prod.fst).count name
            = (chosen.params.map (·.name)).count name := by
  refine ⟨⟨not_fits_of_none, fun unfit => ?_⟩, fun chosen best => ?_⟩
  · cases best : d.bestConstructor? with
    | none => rfl
    | some chosen =>
      obtain ⟨fits, before, after, split, _⟩ := best_of_some best
      exact (unfit chosen (by simp [split]) fits).elim
  · obtain ⟨fits, cheapest⟩ := best_of_some best
    refine ⟨fits, cheapest, by simp [useConstructor, best], passes_construct d chosen, ?_⟩
    intro name given
    rw [(passes_construct d chosen).names]
    exact count_filter (by simpa using given)

/-- A label with a text that is kept for construction and a color that is set. -/
def label : Draft where
  element := { var := "label_1", type := "ui.Label", strategy := .construct, pos := ⟨1, 1⟩, order := 1 }
  descriptor := { TypeDescriptor.blank "ui.Label" with
    constructors :=
      [⟨[{ name := "text" }, { name := "size", hasDefault := true }]⟩, ⟨[{ name := "size" }]⟩,
        ⟨[{ name := "text" }, { name := "color" }]⟩] }
  steps := [⟨⟨1, 20⟩, .set, "color", .literal ⟨1, 20⟩ (.text "red"), none, none⟩]
  pending := [("text", .literal ⟨1, 10⟩ (.text "a"), none)]

/-- The constructor that leaves nothing open is better than the first one that fits. -/
theorem useConstructor_label
    : ∃ chosen, label.bestConstructor? = some chosen
      ∧ chosen.params.map (·.name) = ["text", "color"]
      ∧ label.IsBest label.descriptor.constructors label.Fits chosen
      ∧ (label.construct chosen).steps.length = 0 := by
  refine ⟨_, rfl, rfl, ((useConstructor_cheapest label).2 _ rfl).2.1, rfl⟩

/-- The only constructor has two parameters of one name. -/
def twins : Draft :=
  { label with
    descriptor := { TypeDescriptor.blank "ui.Label" with
      constructors := [⟨[{ name := "text" }, { name := "text" }]⟩] } }

/-- A value is passed once for each parameter of its name. -/
theorem construct_twins
    : ∃ chosen, twins.bestConstructor? = some chosen
      ∧ ((twins.construct chosen).element.args.map Prod.fst).count "text" = 2 :=
  ⟨_, rfl, by decide⟩

end Fxml.Planning
