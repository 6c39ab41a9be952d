import Fxml.Number.Shortest
import Fxml.Proofs.Number.Bits
import Mathlib.Algebra.Order.Field.Basic
import Mathlib.Algebra.Order.Field.Power
import Mathlib.Data.Rat.Cast.Order
import Mathlib.Tactic.FieldSimp
import Mathlib.Tactic.Linarith
import Mathlib.Tactic.Ring

/-! The number nearest to a fraction: every fraction in the reach of a number gives its bits. -/

namespace Fxml.Number

variable {e : Int} {den num : Nat} {p : Parts} {q : ℚ}

/-! ### Rounding -/

/-- A quotient is rounded to the whole number within a half of it, from a half only to an even
one.
-/
theorem roundDiv_eq {n d m : Nat} (hd : 0 < d) (low : 2 * (m * d) ≤ 2 * n + d)
    (high : 2 * n ≤ 2 * (m * d) + d) (lowTie : 2 * (m * d) = 2 * n + d → m % 2 = 0)
    (highTie : 2 * n = 2 * (m * d) + d → m % 2 = 0)
    : roundDiv n d = m := by
  have whole : n / d * d + n % d = n := Nat.div_add_mod' n d
  have rest : n % d < d := Nat.mod_lt n hd
  unfold roundDiv
  dsimp only
  generalize n / d = q at *
  generalize n % d = r at *
  rcases Nat.lt_trichotomy q m with below | rfl | above
  · -- the floor is the number before
    have next : m = q + 1 := by
      by_contra other
      have : (q + 2) * d ≤ m * d := Nat.mul_le_mul_right d (by omega)
      rw [Nat.add_mul] at this
      omega
    subst next
    rw [Nat.add_mul] at low high lowTie highTie
    split
    · omega
    · split
      · rfl
      · rw [if_neg (by omega)]
  · -- the floor is the number itself
    split
    · rfl
    · split
      · omega
      · rw [if_pos (highTie (by omega))]
  · have : (m + 1) * d ≤ q * d := Nat.mul_le_mul_right d above
    rw [Nat.add_mul] at this
    omega

/-- The same for a quotient as a fraction. -/
theorem roundDiv_eq_of_near {n d m : Nat} (hd : 0 < d) (low : (m : ℚ) - 1 / 2 ≤ n / d)
    (high : (n : ℚ) / d ≤ m + 1 / 2)
    (tie : (n : ℚ) / d = m - 1 / 2 ∨ (n : ℚ) / d = m + 1 / 2 → m % 2 = 0)
    : roundDiv n d = m := by
  have pos : (0 : ℚ) < d := by exact_mod_cast hd
  refine roundDiv_eq hd ?_ ?_ (fun same => tie (.inl ?_)) fun same => tie (.inr ?_)
  · rw [le_div_iff₀ pos] at low
    have : (2 * (m * d) : ℚ) ≤ 2 * n + d := by linarith
    exact_mod_cast this
  · rw [div_le_iff₀ pos] at high
    have : (2 * n : ℚ) ≤ 2 * (m * d) + d := by linarith
    exact_mod_cast this
  · rw [div_eq_iff pos.ne']
    have : (2 * (m * d) : ℚ) = 2 * n + d := by exact_mod_cast same
    linarith
  · rw [div_eq_iff pos.ne']
    have : (2 * n : ℚ) = 2 * (m * d) + d := by exact_mod_cast same
    linarith

/-! ### Scaling -/

/-- Scaling divides by a power of two. -/
theorem scaled_ratio (num : Nat) (hd : 0 < den) (e : Int)
    : 0 < (scaled num den e).2
      ∧ ((scaled num den e).1 : ℚ) / (scaled num den e).2 = num / den / 2 ^ e := by
  unfold scaled
  split
  · refine ⟨hd, ?_⟩
    obtain ⟨k, rfl⟩ : ∃ k : Nat, e = -k := ⟨e.natAbs, by omega⟩
    simp only [Int.natAbs_neg, Int.natAbs_natCast, zpow_neg, zpow_natCast, div_inv_eq_mul]
    push_cast
    ring
  · obtain ⟨k, rfl⟩ : ∃ k : Nat, e = k := ⟨e.natAbs, by omega⟩
    refine ⟨by positivity, ?_⟩
    simp only [Int.natAbs_natCast, zpow_natCast]
    push_cast
    field_simp

/-- The exponent at which a fraction has fifty-three bits before its point. -/
def exactExponent (num den : Nat) : Int :=
  let guess : Int := (num.log2 : Int) - (den.log2 : Int) - 53
  if (scaled num den guess).1 / (scaled num den guess).2 < 2 ^ 53 then guess else guess + 1

theorem ratio_bounds (hn : 0 < num) (hd : 0 < den)
    : (2 : ℚ) ^ ((num.log2 : Int) - den.log2 - 1) < num / den
      ∧ (num : ℚ) / den < 2 ^ ((num.log2 : Int) - den.log2 + 1) := by
  have pos : (0 : ℚ) < den := by exact_mod_cast hd
  have numLow : (2 : ℚ) ^ (num.log2 : Int) ≤ num := by
    exact_mod_cast Nat.log2_self_le hn.ne'
  have numHigh : (num : ℚ) < 2 ^ ((num.log2 : Int) + 1) := by
    exact_mod_cast Nat.lt_log2_self (n := num)
  have denLow : (2 : ℚ) ^ (den.log2 : Int) ≤ den := by
    exact_mod_cast Nat.log2_self_le hd.ne'
  have denHigh : (den : ℚ) < 2 ^ ((den.log2 : Int) + 1) := by
    exact_mod_cast Nat.lt_log2_self (n := den)
  constructor
  · rw [lt_div_iff₀ pos]
    calc (2 : ℚ) ^ ((num.log2 : Int) - den.log2 - 1) * den
      _ < 2 ^ ((num.log2 : Int) - den.log2 - 1) * 2 ^ ((den.log2 : Int) + 1) := by gcongr
      _ = 2 ^ (num.log2 : Int) := by
        rw [← zpow_add₀ two_ne_zero]
        congr 1
        omega
      _ ≤ num := numLow
  · rw [div_lt_iff₀ pos]
    calc (num : ℚ)
      _ < 2 ^ ((num.log2 : Int) + 1) := numHigh
      _ = 2 ^ ((num.log2 : Int) - den.log2 + 1) * 2 ^ (den.log2 : Int) := by
        rw [← zpow_add₀ two_ne_zero]
        congr 1
        omega
      _ ≤ 2 ^ ((num.log2 : Int) - den.log2 + 1) * den := by gcongr

theorem exactExponent_bounds (hn : 0 < num) (hd : 0 < den)
    : (2 : ℚ) ^ (52 + exactExponent num den) ≤ num / den
      ∧ (num : ℚ) / den < 2 ^ (53 + exactExponent num den) := by
  obtain ⟨low, high⟩ := ratio_bounds hn hd
  unfold exactExponent
  dsimp only
  generalize guessed : (num.log2 : Int) - den.log2 - 53 = guess
  obtain ⟨pos, ratio⟩ := scaled_ratio num hd guess
  have unit : (0 : ℚ) < 2 ^ guess := by positivity
  have full : (num : ℚ) / den < 2 ^ (53 + guess)
      ↔ (scaled num den guess).1 / (scaled num den guess).2 < 2 ^ 53 := by
    rw [Nat.div_lt_iff_lt_mul pos, zpow_add₀ two_ne_zero, ← div_lt_iff₀ unit, ← ratio,
      div_lt_iff₀ (by exact_mod_cast pos)]
    norm_cast
  split
  · rename_i small
    refine ⟨?_, full.mpr small⟩
    rw [show 52 + guess = (num.log2 : Int) - den.log2 - 1 by omega]
    exact low.le
  · rename_i large
    rw [show 53 + (guess + 1) = (num.log2 : Int) - den.log2 + 1 by omega,
      show 52 + (guess + 1) = 53 + guess by omega]
    exact ⟨not_lt.mp (mt full.mp large), high⟩

/-! ### Fractions in reach -/

/-- Parts that are those of a positive finite number. -/
structure Parts.Canonical (p : Parts) : Prop where
  pos : 0 < p.significand
  lt : p.significand < 2 ^ 53
  low : -1074 ≤ p.exponent
  high : p.exponent ≤ 971
  normal : 2 ^ 52 ≤ p.significand ∨ p.exponent = -1074

/-- The bits of a positive finite number. -/
def Parts.word (p : Parts) : Nat :=
  if p.significand < 2 ^ 52 then p.significand
  else (p.exponent + 1074).toNat * 2 ^ 52 + p.significand

/-- A fraction between the ends of a reach, or on one that belongs to it. -/
def Reach.Contains (r : Reach) (q : ℚ) : Prop :=
  (r.low * 2 ^ r.exponent < q ∨ r.closed = true ∧ r.low * 2 ^ r.exponent = q)
    ∧ (q < r.high * 2 ^ r.exponent ∨ r.closed = true ∧ q = r.high * 2 ^ r.exponent)

/-- A reach in units of the last place of its number. -/
theorem Reach.Contains.inUnits (h : (reach p).Contains q)
    : (((reach p).low / 4 : ℚ) < q / 2 ^ p.exponent
        ∨ (reach p).closed = true ∧ ((reach p).low / 4 : ℚ) = q / 2 ^ p.exponent)
      ∧ (q / 2 ^ p.exponent < (p.significand : ℚ) + 1 / 2
        ∨ (reach p).closed = true ∧ q / 2 ^ p.exponent = (p.significand : ℚ) + 1 / 2) := by
  have unit : (0 : ℚ) < 2 ^ p.exponent := by positivity
  have scale (a : ℚ) : a * 2 ^ (reach p).exponent = a / 4 * 2 ^ p.exponent := by
    rw [show (reach p).exponent = p.exponent - 2 from rfl, zpow_sub₀ two_ne_zero]
    ring
  have top : ((reach p).high : ℚ) / 4 = p.significand + 1 / 2 := by
    rw [show (reach p).high = 4 * p.significand + 2 from rfl]
    push_cast
    ring
  obtain ⟨low, high⟩ := h
  rw [scale] at low high
  rw [top] at high
  refine ⟨low.imp (lt_div_iff₀ unit).mpr fun ⟨closed, same⟩ => ⟨closed, ?_⟩,
    high.imp (div_lt_iff₀ unit).mpr fun ⟨closed, same⟩ => ⟨closed, ?_⟩⟩
  · rw [eq_div_iff unit.ne', same]
  · rw [div_eq_iff unit.ne', same]

/-- What is in reach lies within half a unit of the number, and at a half the number is even. Below a
power of two a quarter is left.
-/
theorem Reach.Contains.near (pos : 0 < p.significand) (h : (reach p).Contains q)
    : (p.significand : ℚ) - 1 / 2 ≤ q / 2 ^ p.exponent
      ∧ q / 2 ^ p.exponent ≤ p.significand + 1 / 2
      ∧ (q / 2 ^ p.exponent = p.significand - 1 / 2 ∨ q / 2 ^ p.exponent = p.significand + 1 / 2
        → p.significand % 2 = 0)
      ∧ (p.significand = 2 ^ 52 → -1074 < p.exponent
        → (p.significand : ℚ) - 1 / 4 ≤ q / 2 ^ p.exponent) := by
  obtain ⟨low, high⟩ := h.inUnits
  have even (closed : (reach p).closed = true) : p.significand % 2 = 0 := by
    simpa [reach] using closed
  have bottom : (p.significand : ℚ) - 1 / 2 ≤ (reach p).low / 4 := by
    have : 4 * p.significand - 2 ≤ (reach p).low := by
      simp only [reach]
      split <;> omega
    have : (4 * p.significand - 2 : ℚ) ≤ (reach p).low := by
      have := (Nat.cast_le (α := ℚ)).mpr this
      push_cast [show 2 ≤ 4 * p.significand by omega] at this
      exact this
    linarith
  refine ⟨?_, ?_, ?_, fun power above => ?_⟩
  · rcases low with low | ⟨_, low⟩ <;> linarith
  · rcases high with high | ⟨_, high⟩ <;> linarith
  · rintro (tie | tie)
    · rcases low with low | ⟨closed, _⟩
      · linarith
      · exact even closed
    · rcases high with high | ⟨closed, _⟩
      · linarith
      · exact even closed
  · have : (reach p).low = 4 * p.significand - 1 := by simp [reach, power, above]
    have : ((reach p).low : ℚ) = 4 * p.significand - 1 := by
      rw [this]
      push_cast [show 1 ≤ 4 * p.significand by omega]
      ring
    rcases low with low | ⟨_, low⟩ <;> linarith

/-- Rounding at the exponent of a number gives the number for every fraction in its reach. -/
theorem roundDiv_of_contains (pos : 0 < p.significand) (hd : 0 < den)
    (h : (reach p).Contains (num / den))
    : roundDiv (scaled num den p.exponent).1 (scaled num den p.exponent).2 = p.significand := by
  obtain ⟨positive, ratio⟩ := scaled_ratio num hd p.exponent
  obtain ⟨low, high, tie, _⟩ := h.near pos
  refine roundDiv_eq_of_near positive ?_ ?_ ?_
  all_goals rw [ratio]
  · exact low
  · exact high
  · exact tie

theorem nearestBits?_eq (hn : 0 < num)
    : nearestBits? num den =
        let exponent := max (exactExponent num den) (-1074)
        let significand := roundDiv (scaled num den exponent).1 (scaled num den exponent).2
        let (significand, exponent) :=
          if significand = 2 ^ 53 then (2 ^ 52, exponent + 1) else (significand, exponent)
        if exponent > 971 then none
        else if significand < 2 ^ 52 then some significand
        else some ((exponent + 1074).toNat * 2 ^ 52 + significand) := by
  rw [nearestBits?, if_neg hn.ne']
  rfl

theorem lt_zpow_iff (k : Nat) : q < 2 ^ (k + e) ↔ q / 2 ^ e < 2 ^ k := by
  rw [zpow_add₀ two_ne_zero, zpow_natCast, div_lt_iff₀ (by positivity)]

theorem zpow_le_iff (k : Nat) : 2 ^ (k + e) ≤ q ↔ 2 ^ k ≤ q / 2 ^ e := by
  rw [zpow_add₀ two_ne_zero, zpow_natCast, le_div_iff₀ (by positivity)]

theorem lt_of_zpow_lt {a b : Int} (h : (2 : ℚ) ^ a < 2 ^ b) : a < b :=
  (zpow_lt_zpow_iff_right₀ (by norm_num)).mp h

/-- A fraction in reach has the exponent of the number, unless it lies just below a power of two. -/
theorem exactExponent_of_contains (canonical : p.Canonical) (hn : 0 < num) (hd : 0 < den)
    (h : (reach p).Contains (num / den))
    : max (exactExponent num den) (-1074) = p.exponent
      ∨ p.significand = 2 ^ 52 ∧ -1074 < p.exponent ∧ exactExponent num den = p.exponent - 1
        ∧ (num : ℚ) / den / 2 ^ p.exponent < 2 ^ 52 := by
  obtain ⟨low, high⟩ := exactExponent_bounds hn hd
  obtain ⟨near, far, _, _⟩ := h.near canonical.pos
  have significand : (p.significand : ℚ) + 1 ≤ 2 ^ 53 := by exact_mod_cast canonical.lt
  have upper : 52 + exactExponent num den < 53 + p.exponent :=
    lt_of_zpow_lt (lt_of_le_of_lt low ((lt_zpow_iff 53).mpr (by linarith)))
  rcases Int.lt_or_eq_of_le canonical.low with above | lowest
  · have normal : 2 ^ 52 ≤ p.significand := canonical.normal.resolve_right (by omega)
    by_cases large : (2 : ℚ) ^ 52 ≤ num / den / 2 ^ p.exponent
    · left
      have : 52 + p.exponent < 53 + exactExponent num den :=
        lt_of_zpow_lt (lt_of_le_of_lt ((zpow_le_iff 52).mpr large) high)
      omega
    · right
      have power : p.significand = 2 ^ 52 := by
        by_contra other
        have : 2 ^ 52 + 1 ≤ p.significand := by omega
        have : (2 : ℚ) ^ 52 + 1 ≤ p.significand := by exact_mod_cast this
        exact large (by linarith)
      have less : 52 + exactExponent num den < 52 + p.exponent :=
        lt_of_zpow_lt (lt_of_le_of_lt low ((lt_zpow_iff 52).mpr (not_le.mp large)))
      have more : 51 + p.exponent < 53 + exactExponent num den := by
        refine lt_of_zpow_lt (lt_of_le_of_lt ((zpow_le_iff 51).mpr ?_) high)
        rw [power] at near
        push_cast at near
        linarith
      exact ⟨power, above, by omega, not_le.mp large⟩
  · left
    omega

theorem roundDiv_below_power (canonical : p.Canonical) (hd : 0 < den)
    (h : (reach p).Contains (num / den)) (power : p.significand = 2 ^ 52)
    (above : -1074 < p.exponent) (below : (num : ℚ) / den / 2 ^ p.exponent < 2 ^ 52)
    : roundDiv (scaled num den (p.exponent - 1)).1 (scaled num den (p.exponent - 1)).2 = 2 ^ 53 := by
  obtain ⟨positive, ratio⟩ := scaled_ratio num hd (p.exponent - 1)
  obtain ⟨_, _, _, quarter⟩ := h.near canonical.pos
  have quarter := quarter power above
  have twice : (num : ℚ) / den / 2 ^ (p.exponent - 1) = 2 * (num / den / 2 ^ p.exponent) := by
    rw [zpow_sub₀ two_ne_zero]
    field_simp
  rw [power] at quarter
  push_cast at quarter
  refine roundDiv_eq_of_near positive ?_ ?_ fun _ => by decide
  all_goals
    rw [ratio, twice]
    push_cast
    linarith

/-- Every fraction in the reach of a number is nearest to it. -/
theorem nearestBits?_of_contains (canonical : p.Canonical) (hn : 0 < num) (hd : 0 < den)
    (h : (reach p).Contains (num / den))
    : nearestBits? num den = some p.word := by
  have lt := canonical.lt
  have high := canonical.high
  rw [nearestBits?_eq hn]
  rcases exactExponent_of_contains canonical hn hd h with same | ⟨power, above, before, below⟩
  · dsimp only
    rw [same, roundDiv_of_contains canonical.pos hd h, if_neg lt.ne]
    rw [if_neg (by omega), Parts.word]
    split <;> rfl
  · dsimp only
    rw [before, max_eq_left (by omega), roundDiv_below_power canonical hd h power above below,
      if_pos rfl]
    dsimp only
    rw [if_neg (by omega), if_neg (by decide), Parts.word, if_neg (by omega), power,
      show p.exponent - 1 + 1 = p.exponent by omega]

theorem roundDiv_le (n d : Nat) : roundDiv n d ≤ n / d + 1 := by
  unfold roundDiv
  dsimp only
  split
  · omega
  · split
    · omega
    · split <;> omega

/-- What is nearest to a fraction is finite. -/
theorem nearestBits?_lt {word : Nat} (hd : 0 < den) (h : nearestBits? num den = some word)
    : word < 2047 * 2 ^ 52 := by
  rcases Nat.eq_zero_or_pos num with rfl | hn
  · cases h
    decide
  rw [nearestBits?_eq hn] at h
  dsimp only at h
  generalize exponents : max (exactExponent num den) (-1074) = exponent at h
  have small : roundDiv (scaled num den exponent).1 (scaled num den exponent).2 ≤ 2 ^ 53 := by
    obtain ⟨positive, ratio⟩ := scaled_ratio num hd exponent
    have below : (num : ℚ) / den < 2 ^ (53 + exponent) := by
      refine lt_of_lt_of_le (exactExponent_bounds hn hd).2 ?_
      exact zpow_le_zpow_right₀ one_le_two (by omega)
    have below := (lt_zpow_iff 53).mp below
    rw [← ratio, div_lt_iff₀ (by exact_mod_cast positive)] at below
    have floor : (scaled num den exponent).1 / (scaled num den exponent).2 < 2 ^ 53 :=
      (Nat.div_lt_iff_lt_mul positive).mpr (by exact_mod_cast below)
    have := roundDiv_le (scaled num den exponent).1 (scaled num den exponent).2
    omega
  generalize roundDiv (scaled num den exponent).1 (scaled num den exponent).2 = significand at h small
  split at h
  all_goals
    split at h
    · cases h
    · split at h <;> cases h <;> omega

end Fxml.Number
