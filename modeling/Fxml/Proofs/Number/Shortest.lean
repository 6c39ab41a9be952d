import Fxml.Proofs.Number.Nearest

/-! The shortest decimal of a number reads back as the number: it lies in its reach. -/

namespace Fxml.Number

variable {a n steps : Nat} {e k : Int} {r : Reach}

/-! ### Exact comparison -/

/-- A power times the whole number that clears its denominator. -/
theorem zpow_mul_toNat {b : ℚ} (hb : b ≠ 0) (e : Int) : b ^ e * b ^ (-e).toNat = b ^ e.toNat := by
  rw [← zpow_natCast, ← zpow_natCast, ← zpow_add₀ hb]
  congr 1
  omega

/-- Both sides of a comparison over one denominator. -/
theorem compareScaled_sides (a : Nat) (e : Int) (n : Nat) (k : Int)
    : ∃ c : ℚ, 0 < c
        ∧ (a : ℚ) * 2 ^ e * c = (a * 2 ^ e.toNat * 10 ^ (-k).toNat : Nat)
        ∧ (n : ℚ) * 10 ^ k * c = (n * 10 ^ k.toNat * 2 ^ (-e).toNat : Nat) := by
  have two := zpow_mul_toNat (two_ne_zero : (2 : ℚ) ≠ 0) e
  have ten := zpow_mul_toNat (by norm_num : (10 : ℚ) ≠ 0) k
  refine ⟨2 ^ (-e).toNat * 10 ^ (-k).toNat, by positivity, ?_, ?_⟩
  · push_cast
    rw [← two]
    ring
  · push_cast
    rw [← ten]
    ring

theorem compareScaled_eq_lt : compareScaled a e n k = .lt ↔ (a : ℚ) * 2 ^ e < n * 10 ^ k := by
  obtain ⟨c, pos, left, right⟩ := compareScaled_sides a e n k
  rw [← mul_lt_mul_iff_left₀ pos, left, right, Nat.cast_lt]
  exact Nat.compare_eq_lt

theorem compareScaled_eq_gt : compareScaled a e n k = .gt ↔ (n : ℚ) * 10 ^ k < a * 2 ^ e := by
  obtain ⟨c, pos, left, right⟩ := compareScaled_sides a e n k
  rw [← mul_lt_mul_iff_left₀ pos, left, right, Nat.cast_lt]
  exact Nat.compare_eq_gt

theorem compareScaled_eq_eq : compareScaled a e n k = .eq ↔ (a : ℚ) * 2 ^ e = n * 10 ^ k := by
  obtain ⟨c, pos, left, right⟩ := compareScaled_sides a e n k
  rw [← mul_left_inj' pos.ne', left, right, Nat.cast_inj]
  exact Nat.compare_eq_eq

theorem Reach.holds_iff : r.holds n k = true ↔ r.Contains (n * 10 ^ k) := by
  simp only [Reach.holds, Reach.Contains, Bool.and_eq_true, Bool.or_eq_true, beq_iff_eq,
    compareScaled_eq_lt, compareScaled_eq_gt, compareScaled_eq_eq]
  rw [eq_comm (a := (n : ℚ) * 10 ^ k)]

/-! ### Grids -/

/-- The floor on a grid and its next point enclose the value. -/
theorem Reach.floorAt_bounds (r : Reach) (k : Int)
    : (r.floorAt k : ℚ) * 10 ^ k ≤ r.value * 2 ^ r.exponent
      ∧ (r.value : ℚ) * 2 ^ r.exponent < (r.floorAt k + 1 : Nat) * 10 ^ k := by
  have pos : 0 < 10 ^ k.toNat * 2 ^ (-r.exponent).toNat := by positivity
  rw [← not_lt, ← compareScaled_eq_lt, ← compareScaled_eq_lt]
  unfold compareScaled
  rw [Nat.compare_eq_lt, Nat.compare_eq_lt, not_lt, Nat.mul_assoc (r.floorAt k),
    Nat.mul_assoc (r.floorAt k + 1), Nat.add_mul, Nat.one_mul]
  exact ⟨Nat.div_mul_le_self _ _, Nat.lt_div_mul_add pos⟩

theorem Reach.holds_of_onGrid? (h : r.onGrid? k = some n) : r.holds n k = true := by
  unfold Reach.onGrid? at h
  dsimp only at h
  split at h
  · cases h
  · cases h
    assumption
  · cases h
    assumption
  · rename_i here next
    split at h
    · cases h
      exact here
    · cases h
      exact next
    · split at h
      · cases h
        exact here
      · cases h
        exact next

theorem Reach.onGrid?_isSome
    (h : r.holds (r.floorAt k) k = true ∨ r.holds (r.floorAt k + 1) k = true)
    : (r.onGrid? k).isSome = true := by
  unfold Reach.onGrid?
  dsimp only
  split
  · rename_i here next
    simp [here, next] at h
  · rfl
  · rfl
  · split <;> rfl

/-- The search ends on a grid with a decimal that reads back, if one of the grids has one. -/
theorem Reach.holds_search (h : ∃ i < steps, (r.onGrid? (k - i)).isSome = true)
    : r.holds (r.search steps k).digits (r.search steps k).exponent = true := by
  induction steps generalizing k with
  | zero =>
    omega
  | succ steps ih =>
    rw [Reach.search]
    split
    · rename_i n found
      exact Reach.holds_of_onGrid? found
    · rename_i none
      obtain ⟨i, less, found⟩ := h
      refine ih ⟨i - 1, ?_⟩
      have : i ≠ 0 := by
        rintro rfl
        simp [none] at found
      refine ⟨by omega, ?_⟩
      rwa [show k - 1 - ((i - 1 : Nat) : Int) = k - i by omega]

/-- The exponent of the leading digit is not too large. -/
theorem Reach.leading_le (h : (10 : ℚ) ^ (k - steps) ≤ r.value * 2 ^ r.exponent)
    : (10 : ℚ) ^ r.leading steps k ≤ r.value * 2 ^ r.exponent := by
  induction steps generalizing k with
  | zero => simpa [Reach.leading] using h
  | succ steps ih =>
    rw [Reach.leading]
    split
    · refine ih ?_
      rwa [show k - 1 - (steps : Int) = k - ((steps + 1 : Nat) : Int) by omega]
    · rename_i reached
      rw [beq_iff_eq, compareScaled_eq_lt, not_lt] at reached
      simpa using reached

/-! ### Seventeen digits suffice -/

variable {p : Parts}

theorem reach_value (p : Parts)
    : ((reach p).value : ℚ) * 2 ^ (reach p).exponent = p.significand * 2 ^ p.exponent := by
  rw [show (reach p).value = 4 * p.significand from rfl,
    show (reach p).exponent = p.exponent - 2 from rfl, zpow_sub₀ two_ne_zero]
  push_cast
  ring

/-- Fractions near enough to a number are in its reach. -/
theorem contains_of_near {q : ℚ} (pos : 0 < p.significand)
    (low : (p.significand : ℚ) * 2 ^ p.exponent - 2 ^ p.exponent / 2 < q)
    (lower : p.significand = 2 ^ 52 → (p.significand : ℚ) * 2 ^ p.exponent < q)
    (high : q < p.significand * 2 ^ p.exponent + 2 ^ p.exponent / 2)
    : (reach p).Contains q := by
  have unit : (0 : ℚ) < 2 ^ p.exponent := by positivity
  have scale (a : ℚ) : a * 2 ^ (reach p).exponent = a / 4 * 2 ^ p.exponent := by
    rw [show (reach p).exponent = p.exponent - 2 from rfl, zpow_sub₀ two_ne_zero]
    ring
  have top : ((reach p).high : ℚ) = 4 * p.significand + 2 := by
    rw [show (reach p).high = 4 * p.significand + 2 from rfl]
    push_cast
    ring
  refine ⟨.inl ?_, .inl ?_⟩
  · rw [scale]
    by_cases power : p.significand = 2 ^ 52
    · have bottom : ((reach p).low : ℚ) ≤ 4 * p.significand := by
        have : (reach p).low ≤ 4 * p.significand := by
          simp only [reach]
          split <;> omega
        exact_mod_cast this
      have := mul_le_mul_of_nonneg_right bottom unit.le
      linarith [lower power]
    · have bottom : ((reach p).low : ℚ) = 4 * p.significand - 2 := by
        rw [show (reach p).low = 4 * p.significand - 2 from if_neg (by simp only [power]; simp)]
        push_cast [show 2 ≤ 4 * p.significand by omega]
        ring
      rw [bottom]
      linarith
  · rw [scale, top]
    linarith

/-- On a grid of seventeen digits, the value has a neighbour in reach. -/
theorem holds_of_fine (canonical : p.Canonical)
    (fine : (10 : ℚ) ^ (k + 16) ≤ p.significand * 2 ^ p.exponent)
    : (reach p).holds ((reach p).floorAt k) k = true
      ∨ (reach p).holds ((reach p).floorAt k + 1) k = true := by
  rw [Reach.holds_iff, Reach.holds_iff]
  obtain ⟨below, above⟩ := (reach p).floorAt_bounds k
  rw [reach_value] at below above
  generalize (reach p).floorAt k = n at *
  rw [zpow_add₀ (by norm_num)] at fine
  push_cast at above ⊢
  -- one step of the grid is less than a unit, and less than half of one at a power of two
  by_cases power : p.significand = 2 ^ 52
  · right
    have step : (10 : ℚ) ^ k < 2 ^ p.exponent / 2 := by
      rw [power] at fine
      push_cast at fine
      linarith
    exact contains_of_near canonical.pos (by linarith) (fun _ => above) (by linarith)
  · have significand : (p.significand : ℚ) * 2 ^ p.exponent < 2 ^ 53 * 2 ^ p.exponent := by
      have : (p.significand : ℚ) < 2 ^ 53 := by exact_mod_cast canonical.lt
      gcongr
    by_cases near : (p.significand : ℚ) * 2 ^ p.exponent - 2 ^ p.exponent / 2 < n * 10 ^ k
    · exact .inl (contains_of_near canonical.pos near (fun h => (power h).elim) (by linarith))
    · exact .inr (contains_of_near canonical.pos (by linarith) (fun h => (power h).elim)
        (by linarith))

/-- The smallest number is above the smallest power of ten that is tried. -/
theorem pow_le_value (canonical : p.Canonical)
    : (10 : ℚ) ^ (-331 : Int) ≤ p.significand * 2 ^ p.exponent := by
  have one : (1 : ℚ) ≤ p.significand := by exact_mod_cast canonical.pos
  calc (10 : ℚ) ^ (-331 : Int)
    _ ≤ 2 ^ (-1074 : Int) := by
      rw [zpow_neg, zpow_neg]
      refine inv_anti₀ (by positivity) ?_
      have : 2 ^ 1074 ≤ 10 ^ 331 := by decide +kernel
      exact_mod_cast this
    _ ≤ 2 ^ p.exponent := zpow_le_zpow_right₀ one_le_two canonical.low
    _ ≤ p.significand * 2 ^ p.exponent := le_mul_of_one_le_left (by positivity) one

theorem contains_shortest (canonical : p.Canonical)
    : (reach p).Contains ((shortest p).digits * 10 ^ (shortest p).exponent) := by
  rw [← Reach.holds_iff]
  have leading : (10 : ℚ) ^ (reach p).leading 640 309 ≤ p.significand * 2 ^ p.exponent := by
    rw [← reach_value]
    refine Reach.leading_le ?_
    rw [reach_value]
    exact pow_le_value canonical
  refine Reach.holds_search ⟨16, by omega, Reach.onGrid?_isSome (holds_of_fine canonical ?_)⟩
  simpa using leading

end Fxml.Number
