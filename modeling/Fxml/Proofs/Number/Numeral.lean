import Fxml.Expr.Reader
import Fxml.Proofs.Number.Shortest
import Mathlib.Data.List.TakeWhile

/-! Decimals as they are written. A finite number that is not negative is written as a numeral that
denotes it: reading the numeral rounds to the same number.
-/

open List Fxml.Text Fxml.Token

namespace Fxml.Number

variable {x : Float} {p : Parts} {c : Char}

/-! ### Numerals -/

/-- A decimal as it is written: digits, digits after a point, and an exponent with its sign. One of
the last two is there, which tells it from a whole number.
-/
structure Numeral where
  whole : List Char
  places : List Char
  exponent : Option (Bool × List Char)
  whole_ne_nil : whole ≠ []
  whole_digits : ∀ c ∈ whole, isAsciiDigit c = true
  places_digits : ∀ c ∈ places, isAsciiDigit c = true
  exponent_digits : ∀ negative digits, exponent = some (negative, digits)
    → digits ≠ [] ∧ ∀ c ∈ digits, isAsciiDigit c = true
  marked : places = [] → exponent.isSome = true

namespace Numeral

/-- The point and the digits after it. -/
def fractionText (n : Numeral) : List Char := if n.places = [] then [] else '.' :: n.places

/-- The exponent with its letter and its sign. -/
def exponentText (n : Numeral) : List Char :=
  match n.exponent with
  | none => []
  | some (negative, digits) => 'e' :: (if negative then '-' else '+') :: digits

def text (n : Numeral) : List Char := n.whole ++ n.fractionText ++ n.exponentText

/-- All digits before the exponent as one number. -/
def digits (n : Numeral) : Nat := digitsNumber (n.whole ++ n.places)

/-- The power of ten that scales the digits. -/
def scale (n : Numeral) : Int :=
  (match n.exponent with
    | none => 0
    | some (negative, digits) =>
      if negative then -(digitsNumber digits : Int) else digitsNumber digits)
    - n.places.length

/-- The number that a numeral denotes. -/
def value (n : Numeral) : ℚ := n.digits * 10 ^ n.scale

end Numeral

/-! ### Digits -/

theorem isAsciiDigit_iff : isAsciiDigit c = true ↔ c.isDigit = true := by
  simp only [isAsciiDigit, Char.isDigit, Bool.and_eq_true, decide_eq_true_eq]
  rfl

theorem isAsciiDigit_toDigits {n : Nat} : ∀ c ∈ Nat.toDigits 10 n, isAsciiDigit c = true :=
  fun _ member => isAsciiDigit_iff.mpr (Nat.isDigit_of_mem_toDigits (by decide) (by decide) member)

theorem isAsciiDigit_replicate {k : Nat} : ∀ c ∈ replicate k '0', isAsciiDigit c = true := by
  intro c member
  rw [eq_of_mem_replicate member]
  rfl

theorem digitsNumber_toDigits (n : Nat) : digitsNumber (Nat.toDigits 10 n) = n :=
  Nat.ofDigitChars_ten_toDigits

theorem digitsNumber_append (a b : List Char)
    : digitsNumber (a ++ b) = 10 ^ b.length * digitsNumber a + digitsNumber b := by
  change Nat.ofDigitChars 10 (a ++ b) 0 = _
  rw [Nat.ofDigitChars_append, Nat.ofDigitChars_eq_ofDigitChars_zero]
  rfl

theorem digitsNumber_zeros (k : Nat) : digitsNumber (replicate k '0') = 0 :=
  Nat.ofDigitChars_replicate_zero

theorem digitsNumber_append_zeros (a : List Char) (k : Nat)
    : digitsNumber (a ++ replicate k '0') = 10 ^ k * digitsNumber a := by
  rw [digitsNumber_append, digitsNumber_zeros, length_replicate, Nat.add_zero]

theorem digitsNumber_zeros_append (k : Nat) (a : List Char)
    : digitsNumber (replicate k '0' ++ a) = digitsNumber a := by
  rw [digitsNumber_append, digitsNumber_zeros, Nat.mul_zero, Nat.zero_add]

/-- Dropped zeros stood at the end. -/
theorem dropZeros_append (cs : List Char)
    : (dropZeros cs).1 ++ replicate (dropZeros cs).2 '0' = cs := by
  have taken : cs.reverse.takeWhile (· == '0')
      = replicate (cs.reverse.takeWhile (· == '0')).length '0' := by
    refine eq_replicate_of_mem fun c member => ?_
    simpa using mem_takeWhile_imp member
  have whole := takeWhile_append_dropWhile (p := (· == '0')) (l := cs.reverse)
  have size := congrArg length whole
  simp only [length_append, length_reverse] at size
  have count : (dropZeros cs).2 = (cs.reverse.takeWhile (· == '0')).length := by
    simp only [dropZeros, length_reverse]
    omega
  rw [count, ← reverse_inj, reverse_append, reverse_replicate, ← taken]
  simp [dropZeros]

/-! ### Layouts write numerals -/

section Writing

variable {digits : List Char} {point : Int}

/-- Digits with a point between them. -/
theorem exists_numeral_pointed {whole places : List Char} {value : ℚ} (before : whole ≠ [])
    (behind : places ≠ []) (digital : ∀ c ∈ whole ++ places, isAsciiDigit c = true)
    (same : digitsNumber (whole ++ places) * 10 ^ (-places.length : Int) = value)
    : ∃ n : Numeral, n.text = whole ++ '.' :: places ∧ n.value = value := by
  refine ⟨{
      whole, places
      exponent := none
      whole_ne_nil := before
      whole_digits := fun c member => digital c (mem_append_left _ member)
      places_digits := fun c member => digital c (mem_append_right _ member)
      exponent_digits := nofun
      marked := fun none => (behind none).elim
    }, ?_, ?_⟩
  · simp [Numeral.text, Numeral.fractionText, Numeral.exponentText, behind]
  · rw [← same, Numeral.value, Numeral.digits, Numeral.scale, zero_sub]

theorem exists_numeral_positional (nonempty : digits ≠ [])
    (digital : ∀ c ∈ digits, isAsciiDigit c = true)
    : ∃ n : Numeral, n.text = positional digits point
        ∧ n.value = digitsNumber digits * 10 ^ (point - digits.length) := by
  unfold positional
  split
  · have zeros : ['0'] ++ (replicate point.natAbs '0' ++ digits)
        = replicate (point.natAbs + 1) '0' ++ digits := rfl
    rw [append_assoc]
    refine @exists_numeral_pointed ['0'] (replicate point.natAbs '0' ++ digits) _
      (cons_ne_nil _ _) (by simp [nonempty]) (fun c member => ?_) ?_
    · rw [zeros] at member
      exact (mem_append.mp member).elim (isAsciiDigit_replicate c) (digital c)
    · rw [zeros, digitsNumber_zeros_append, length_append, length_replicate]
      congr 2
      omega
  split
  · have zeros : digits ++ replicate (point.natAbs - digits.length) '0' ++ ['0']
        = digits ++ replicate (point.natAbs - digits.length + 1) '0' := by
      rw [replicate_succ', append_assoc]
    refine exists_numeral_pointed (by simp [nonempty]) (cons_ne_nil '0' []) (fun c member => ?_) ?_
    · rw [zeros] at member
      exact (mem_append.mp member).elim (digital c) (isAsciiDigit_replicate c)
    · rw [zeros, digitsNumber_append_zeros,
        show point - digits.length = ((point.natAbs - digits.length : Nat) : Int) by omega]
      push_cast
      rw [zpow_natCast, pow_succ, length_singleton, Nat.cast_one, zpow_neg_one]
      ring
  · refine exists_numeral_pointed ?_ ?_ (fun c member => ?_) ?_
    · simp only [ne_eq, take_eq_nil_iff, nonempty, or_false]
      omega
    · rw [ne_eq, drop_eq_nil_iff]
      omega
    · exact digital c (take_append_drop _ digits ▸ member)
    · rw [take_append_drop, length_drop]
      congr 2
      omega

theorem exists_numeral_scientific (width : Nat) (nonempty : digits ≠ [])
    (digital : ∀ c ∈ digits, isAsciiDigit c = true)
    : ∃ n : Numeral, n.text = scientific width digits point
        ∧ n.value = digitsNumber digits * 10 ^ (point - digits.length) := by
  have size := length_pos_iff.mpr nonempty
  refine ⟨{
      whole := digits.take 1
      places := digits.drop 1
      exponent := some (decide (point - 1 < 0),
        replicate (width - (Nat.toDigits 10 (point - 1).natAbs).length) '0'
          ++ Nat.toDigits 10 (point - 1).natAbs)
      whole_ne_nil := by simp [nonempty]
      whole_digits := fun c member => digital c (mem_of_mem_take member)
      places_digits := fun c member => digital c (mem_of_mem_drop member)
      exponent_digits := by
        rintro _ _ ⟨⟩
        refine ⟨append_ne_nil_of_right_ne_nil _ Nat.toDigits_ne_nil, fun c member => ?_⟩
        exact (mem_append.mp member).elim (isAsciiDigit_replicate c) (isAsciiDigit_toDigits c)
      marked := fun _ => rfl
    }, ?_, ?_⟩
  · simp only [Numeral.text, Numeral.fractionText, Numeral.exponentText, scientific,
      List.isEmpty_iff, decide_eq_true_eq]
  · have scale : (if decide (point - 1 < 0) = true then -((point - 1).natAbs : Int)
          else (point - 1).natAbs) - (digits.drop 1).length
        = point - digits.length := by
      rw [length_drop]
      split
      · rename_i low
        have := of_decide_eq_true low
        omega
      · rename_i high
        have := of_decide_eq_false (Bool.eq_false_iff.mpr high)
        omega
    simp only [Numeral.value, Numeral.digits, Numeral.scale, take_append_drop,
      digitsNumber_zeros_append, digitsNumber_toDigits, scale]

theorem exists_numeral_write (layout : Layout) {d : Decimal} (pos : 0 < d.digits)
    : ∃ n : Numeral, n.text = layout.write d ∧ n.value = d.digits * 10 ^ d.exponent := by
  have whole := dropZeros_append (Nat.toDigits 10 d.digits)
  have same := digitsNumber_toDigits d.digits
  rw [← whole, digitsNumber_append_zeros] at same
  have nonempty : (dropZeros (Nat.toDigits 10 d.digits)).1 ≠ [] := by
    intro empty
    rw [empty, show digitsNumber [] = 0 from rfl, Nat.mul_zero] at same
    omega
  have digital : ∀ c ∈ (dropZeros (Nat.toDigits 10 d.digits)).1, isAsciiDigit c = true := by
    intro c member
    have member := mem_append_left (replicate (dropZeros (Nat.toDigits 10 d.digits)).2 '0') member
    exact isAsciiDigit_toDigits c (whole ▸ member)
  have total (point : Int)
      (h : point = d.exponent + (dropZeros (Nat.toDigits 10 d.digits)).2
        + (dropZeros (Nat.toDigits 10 d.digits)).1.length)
      : (digitsNumber (dropZeros (Nat.toDigits 10 d.digits)).1 : ℚ)
          * 10 ^ (point - (dropZeros (Nat.toDigits 10 d.digits)).1.length)
        = d.digits * 10 ^ d.exponent := by
    rw [h, add_sub_cancel_right, zpow_add₀ (by norm_num), zpow_natCast]
    have same : (10 ^ (dropZeros (Nat.toDigits 10 d.digits)).2
        * digitsNumber (dropZeros (Nat.toDigits 10 d.digits)).1 : ℚ) = d.digits := by
      exact_mod_cast same
    rw [← same]
    ring
  unfold Layout.write
  dsimp only
  split
  · obtain ⟨n, text, value⟩ := exists_numeral_positional nonempty digital
    exact ⟨n, text, value.trans (total _ rfl)⟩
  · obtain ⟨n, text, value⟩ := exists_numeral_scientific layout.exponentWidth nonempty digital
    exact ⟨n, text, value.trans (total _ rfl)⟩

end Writing

/-! ### Reading numerals -/

section Reading

variable {rest : List Char}

theorem takeWhile_digits {ds : List Char} (digital : ∀ c ∈ ds, isAsciiDigit c = true)
    (ends : ∀ c ∈ rest.head?, isAsciiDigit c = false)
    : (ds ++ rest).takeWhile isAsciiDigit = ds ∧ (ds ++ rest).dropWhile isAsciiDigit = rest := by
  rw [takeWhile_append_of_pos digital, dropWhile_append_of_pos digital]
  cases rest with
  | nil => simp
  | cons c rest =>
    have stop := ends c rfl
    simp [stop]

theorem not_sign_of_alnum (alnum : isAsciiAlnum c = true)
    : (c == '+' || c == '-') = false := by
  rw [Bool.eq_false_iff]
  intro sign
  obtain rfl | rfl : c = '+' ∨ c = '-' := by simpa using sign
  all_goals exact absurd alnum (by decide)

/-- A letter, at most one sign and a digit start an exponent. -/
theorem scanExponent_digits {letter d : Char} {sign more : List Char}
    (isLetter : (letter == 'e' || letter == 'E') = true) (isSign : sign ∈ [[], ['+'], ['-']])
    (first : isAsciiDigit d = true)
    : scanExponent (letter :: (sign ++ d :: more))
      = (letter :: (sign ++ (d :: more).takeWhile isAsciiDigit),
        (d :: more).dropWhile isAsciiDigit) := by
  have noSign := not_sign_of_alnum (Bool.or_eq_true_iff.mpr (.inr first))
  simp only [mem_cons, not_mem_nil, or_false] at isSign
  rcases isSign with rfl | rfl | rfl <;> simp [scanExponent, isLetter, noSign, first]

theorem scanExponent_none (ends : ∀ c ∈ rest.head?, isAsciiAlnum c = false)
    : scanExponent rest = ([], rest) := by
  cases rest with
  | nil => rfl
  | cons c rest =>
    have other : ¬(c == 'e' || c == 'E') = true := by
      intro letter
      obtain rfl | rfl : c = 'e' ∨ c = 'E' := by simpa using letter
      all_goals exact absurd (ends _ rfl) (by decide)
    exact if_neg other

variable (n : Numeral)

theorem Numeral.head_fractionText (ends : ∀ c ∈ rest.head?, isAsciiDigit c = false)
    : ∀ c ∈ (n.fractionText ++ (n.exponentText ++ rest)).head?, isAsciiDigit c = false := by
  unfold fractionText exponentText
  split
  · split
    · simpa using ends
    · rintro c ⟨⟩
      rfl
  · rintro c ⟨⟩
    rfl

theorem Numeral.scanFraction_text
    (ends : ∀ c ∈ (n.exponentText ++ rest).head?, isAsciiDigit c = false ∧ c ≠ '.')
    : scanFraction (n.fractionText ++ (n.exponentText ++ rest))
      = (n.fractionText, n.exponentText ++ rest) := by
  unfold fractionText
  split
  · rw [nil_append]
    unfold scanFraction
    split
    · rename_i d after same
      exact ((ends '.' (by rw [same]; rfl)).2 rfl).elim
    · rfl
  · rename_i nonempty
    obtain ⟨d, ds, places⟩ := exists_cons_of_ne_nil nonempty
    have digital := n.places_digits
    rw [places] at digital ⊢
    rw [forall_mem_cons] at digital
    obtain ⟨taken, left⟩ := takeWhile_digits digital.2 fun c member => (ends c member).1
    simp only [cons_append, scanFraction, digital.1, if_true, taken, left]

theorem Numeral.scanExponent_text (ends : ∀ c ∈ rest.head?, isAsciiAlnum c = false)
    : scanExponent (n.exponentText ++ rest) = (n.exponentText, rest) := by
  unfold exponentText
  split
  · exact scanExponent_none ends
  · rename_i negative digits given
    obtain ⟨nonempty, digital⟩ := n.exponent_digits negative digits given
    obtain ⟨taken, left⟩ := takeWhile_digits digital fun c member =>
      (Bool.or_eq_false_iff.mp (ends c member)).2
    obtain ⟨d, ds, rfl⟩ := exists_cons_of_ne_nil nonempty
    have scanned := @scanExponent_digits 'e' d [if negative then '-' else '+'] (ds ++ rest) rfl
      (by cases negative <;> simp) (digital d mem_cons_self)
    rw [cons_append] at taken left
    rw [taken, left] at scanned
    exact scanned

/-- A text that may follow a number: it starts with no letter, no digit and no point. -/
def EndsNumber (rest : List Char) : Prop :=
  ∀ c ∈ rest.head?, isAsciiAlnum c = false ∧ c ≠ '.'

theorem EndsNumber.digit (ends : EndsNumber rest) : ∀ c ∈ rest.head?, isAsciiDigit c = false :=
  fun c member => (Bool.or_eq_false_iff.mp (ends c member).1).2

theorem Numeral.head_exponentText (ends : EndsNumber rest)
    : ∀ c ∈ (n.exponentText ++ rest).head?, isAsciiDigit c = false ∧ c ≠ '.' := by
  unfold exponentText
  split
  · exact fun c member => ⟨ends.digit c member, (ends c member).2⟩
  · rintro c ⟨⟩
    exact ⟨rfl, by decide⟩

theorem Numeral.marked_text : (n.fractionText.isEmpty && n.exponentText.isEmpty) = false := by
  unfold fractionText exponentText
  split
  · rename_i none
    obtain ⟨given, exponent⟩ := Option.isSome_iff_exists.mp (n.marked none)
    simp [exponent]
  · rfl

theorem Numeral.scanNumber_text (ends : EndsNumber rest)
    : scanNumber (n.text ++ rest) = .ok (.float (String.ofList n.text), rest) := by
  obtain ⟨taken, left⟩ := takeWhile_digits n.whole_digits (n.head_fractionText ends.digit)
  have fraction := n.scanFraction_text (n.head_exponentText ends)
  have exponent := n.scanExponent_text fun c member => (ends c member).1
  unfold scanNumber
  simp only [text, append_assoc, taken, left, fraction, exponent, scanNumber.number,
    n.marked_text, Bool.false_eq_true, if_false]
  split
  · rename_i c first
    simp [(Bool.or_eq_false_iff.mp (ends c first).1).1]
  · rfl

/-- The number that the text of a numeral denotes is the rounded value of the numeral. -/
theorem Numeral.floatValue_text
    : Expr.floatValue (String.ofList n.text) = ofDecimal false n.digits n.scale := by
  have ends : EndsNumber [] := nofun
  obtain ⟨taken, left⟩ := takeWhile_digits n.whole_digits (n.head_fractionText ends.digit)
  have fraction := n.scanFraction_text (n.head_exponentText ends)
  have places : n.fractionText.drop 1 = n.places := by
    unfold fractionText
    split
    · rename_i none
      rw [none]
      rfl
    · rfl
  simp only [append_nil] at taken left fraction
  unfold Expr.floatValue
  simp only [String.toList_ofList, text, append_assoc, taken, left, fraction, places, digits, scale]
  congr 2
  unfold exponentText
  rcases n.exponent with none | ⟨negative, digits⟩
  · rfl
  · cases negative <;> rfl

end Reading

/-! ### The number that a numeral denotes -/

theorem decimal_bounds {digits : Nat} (pos : 0 < digits) (exponent : Int)
    : (10 : ℚ) ^ (exponent + (Nat.toDigits 10 digits).length - 1) ≤ digits * 10 ^ exponent
      ∧ (digits : ℚ) * 10 ^ exponent < 10 ^ (exponent + (Nat.toDigits 10 digits).length) := by
  have length : 0 < (Nat.toDigits 10 digits).length := Nat.length_toDigits_pos
  generalize counted : (Nat.toDigits 10 digits).length = count at length
  have above : (digits : ℚ) < 10 ^ count := by
    have := (Nat.length_toDigits_le_iff (by decide) length).mp counted.le
    exact_mod_cast this
  have below : (10 : ℚ) ^ (count - 1) ≤ digits := by
    have : 10 ^ (count - 1) ≤ digits := by
      rcases Nat.eq_zero_or_pos (count - 1) with zero | more
      · rw [zero]
        exact pos
      · by_contra small
        have := (Nat.length_toDigits_le_iff (by decide) more).mpr (not_le.mp small)
        omega
    exact_mod_cast this
  constructor
  · rw [show exponent + (count : Int) - 1 = ((count - 1 : Nat) : Int) + exponent by omega,
      zpow_add₀ (by norm_num), zpow_natCast]
    gcongr
  · rw [add_comm, zpow_add₀ (by norm_num), zpow_natCast]
    gcongr

/-- What is in the reach of a number is neither too small nor too large. -/
theorem Reach.Contains.bounds (canonical : p.Canonical) {q : ℚ} (h : (reach p).Contains q)
    : (10 : ℚ) ^ (-400 : Int) ≤ q ∧ q < 10 ^ (400 : Int) := by
  obtain ⟨low, high, _, _⟩ := h.near canonical.pos
  have unit : (0 : ℚ) < 2 ^ p.exponent := by positivity
  have one : (1 : ℚ) ≤ p.significand := by exact_mod_cast canonical.pos
  have top : (p.significand : ℚ) + 1 ≤ 2 ^ 53 := by exact_mod_cast canonical.lt
  rw [le_div_iff₀ unit] at low
  rw [div_le_iff₀ unit] at high
  constructor
  · calc (10 : ℚ) ^ (-400 : Int)
      _ ≤ 2 ^ (-1075 : Int) := by
        rw [zpow_neg, zpow_neg]
        refine inv_anti₀ (by positivity) ?_
        have : 2 ^ 1075 ≤ 10 ^ 400 := by decide +kernel
        exact_mod_cast this
      _ ≤ 2 ^ (p.exponent - 1) := zpow_le_zpow_right₀ one_le_two (by have := canonical.low; omega)
      _ = 1 / 2 * 2 ^ p.exponent := by
        rw [zpow_sub₀ two_ne_zero]
        ring
      _ ≤ (p.significand - 1 / 2) * 2 ^ p.exponent := by
        gcongr
        linarith
      _ ≤ q := low
  · calc q
      _ ≤ (p.significand + 1 / 2) * 2 ^ p.exponent := high
      _ ≤ 2 ^ (53 : Int) * 2 ^ p.exponent := by
        gcongr
        rw [show (2 : ℚ) ^ (53 : Int) = 2 ^ 53 from zpow_natCast 2 53]
        linarith
      _ = 2 ^ (53 + p.exponent) := (zpow_add₀ two_ne_zero _ _).symm
      _ ≤ 2 ^ (1024 : Int) := zpow_le_zpow_right₀ one_le_two (by have := canonical.high; omega)
      _ < 10 ^ (400 : Int) := by
        have : 2 ^ 1024 < 10 ^ 400 := by decide +kernel
        exact_mod_cast this

theorem lt_of_ten_zpow_lt {a b : Int} (h : (10 : ℚ) ^ a < 10 ^ b) : a < b :=
  (zpow_lt_zpow_iff_right₀ (by norm_num)).mp h

theorem ofDecimal_of_contains (canonical : p.Canonical) {digits : Nat} {exponent : Int}
    (h : (reach p).Contains (digits * 10 ^ exponent))
    : ofDecimal false digits exponent = Float.ofBits (UInt64.ofNat p.word) := by
  obtain ⟨low, high⟩ := h.bounds canonical
  have pos : 0 < digits := by
    rcases Nat.eq_zero_or_pos digits with rfl | pos
    · have : (0 : ℚ) < 10 ^ (-400 : Int) := by positivity
      simp only [Nat.cast_zero, zero_mul] at low
      linarith
    · exact pos
  obtain ⟨below, above⟩ := decimal_bounds pos exponent
  have least := lt_of_ten_zpow_lt (lt_of_le_of_lt low above)
  have most := lt_of_ten_zpow_lt (lt_of_le_of_lt below high)
  unfold ofDecimal
  rw [if_neg (by simp only [Bool.or_eq_true, decide_eq_true_eq]; omega), if_neg (by omega)]
  split
  · obtain ⟨k, rfl⟩ : ∃ k : Nat, exponent = -k := ⟨exponent.natAbs, by omega⟩
    have ratio : (digits : ℚ) * 10 ^ (-k : Int) = (digits : ℚ) / (10 ^ k : Nat) := by
      rw [zpow_neg, zpow_natCast]
      push_cast
      ring
    rw [ratio] at h
    rw [Int.natAbs_neg, Int.natAbs_natCast, nearest?,
      nearestBits?_of_contains canonical pos (by positivity) h]
    rfl
  · obtain ⟨k, rfl⟩ : ∃ k : Nat, exponent = k := ⟨exponent.natAbs, by omega⟩
    have ratio : (digits : ℚ) * 10 ^ (k : Int) = ((digits * 10 ^ k : Nat) : ℚ) / (1 : Nat) := by
      rw [zpow_natCast]
      push_cast
      ring
    rw [ratio] at h
    rw [Int.natAbs_natCast, nearest?,
      nearestBits?_of_contains canonical (by positivity) (by positivity) h]
    rfl

theorem parts_fields (x : Float)
    : biasedOf (wordBits x) = 0 ∧ (parts x).significand = fractionOf (wordBits x)
        ∧ (parts x).exponent = -1074
      ∨ biasedOf (wordBits x) ≠ 0 ∧ (parts x).significand = 2 ^ 52 + fractionOf (wordBits x)
        ∧ (parts x).exponent = biasedOf (wordBits x) - 1075 := by
  by_cases small : biasedOf (wordBits x) = 0
  · exact .inl ⟨small, if_pos small, by rw [parts]; exact congrArg (· - 1075) (if_pos small)⟩
  · exact .inr ⟨small, if_neg small, by rw [parts]; exact congrArg (· - 1075) (if_neg small)⟩

theorem canonical_parts (finite : biasedOf (wordBits x) ≠ 2047)
    (nonzero : (parts x).significand ≠ 0)
    : (parts x).Canonical := by
  have biased : biasedOf (wordBits x) < 2 ^ 11 := biasedOf_lt _
  have fraction : fractionOf (wordBits x) < 2 ^ 52 := fractionOf_lt _
  rcases parts_fields x with ⟨_, significand, exponent⟩ | ⟨_, significand, exponent⟩
  · exact ⟨by omega, by omega, by omega, by omega, .inr exponent⟩
  · exact ⟨by omega, by omega, by omega, by omega, .inl (by omega)⟩

/-- The parts of a number that is not negative tell its bits. -/
theorem word_parts (positive : signOf (wordBits x) = .positive) : (parts x).word = wordBits x := by
  have whole := wordOf_fields (wordBits_lt x)
  have fraction : fractionOf (wordBits x) < 2 ^ 52 := fractionOf_lt _
  rw [positive] at whole
  simp only [wordOf, Float.Model.UnpackedFloat.Sign.toBitVec, BitVec.toNat_ofNat] at whole
  rw [← whole, Parts.word]
  rcases parts_fields x with ⟨_, significand, exponent⟩ | ⟨_, significand, exponent⟩
  · rw [if_pos (by omega)]
    omega
  · have shift : ((parts x).exponent + 1074).toNat = biasedOf (wordBits x) - 1 := by omega
    rw [if_neg (by omega), shift, significand]
    clear whole
    omega

section

variable (number : x.isNaN = false)
include number

/-- A number that is neither infinite nor negative is written as a numeral that denotes it. -/
theorem exists_numeral_floatText (finite : x.isInf = false)
    (positive : signOf (wordBits x) = .positive)
    : ∃ n : Numeral, floatText x = String.ofList n.text ∧ ofDecimal false n.digits n.scale = x := by
  have range : biasedOf (wordBits x) ≠ 2047 := by
    intro full
    by_cases fraction : fractionOf (wordBits x) = 0
    · exact Bool.false_ne_true (finite.symm.trans (isInf_iff.mpr ⟨full, fraction⟩))
    · exact Bool.false_ne_true (number.symm.trans (isNaN_iff.mpr ⟨full, fraction⟩))
  have sign : (parts x).negative = false := parts_positive.mpr positive
  simp only [floatText, number, finite, sign, Bool.false_eq_true, if_false, String.empty_append]
  split
  · rename_i zero
    refine ⟨{
        whole := ['0']
        places := ['0']
        exponent := none
        whole_ne_nil := cons_ne_nil _ _
        whole_digits := all_eq_true.mp rfl
        places_digits := all_eq_true.mp rfl
        exponent_digits := nofun
        marked := nofun
      }, rfl, ?_⟩
    have bits : wordBits x = 0 := by
      rw [← word_parts positive, Parts.word, zero]
      rfl
    exact eq_of_wordBits bits.symm
  · rename_i nonzero
    have canonical := canonical_parts range nonzero
    have contained := contains_shortest canonical
    have pos : 0 < (shortest (parts x)).digits := by
      rcases Nat.eq_zero_or_pos (shortest (parts x)).digits with zero | pos
      · have low := (contained.bounds canonical).1
        have : (0 : ℚ) < 10 ^ (-400 : Int) := by positivity
        rw [zero, Nat.cast_zero, zero_mul] at low
        linarith
      · exact pos
    obtain ⟨n, text, value⟩ := exists_numeral_write sourceLayout pos
    refine ⟨n, by rw [text], ?_⟩
    rw [← value] at contained
    rw [ofDecimal_of_contains canonical contained, word_parts positive, ofBits_wordBits number]

/-- A number and its opposite differ in their sign alone. -/
theorem fields_neg
    : biasedOf (wordBits (-x)) = biasedOf (wordBits x)
      ∧ fractionOf (wordBits (-x)) = fractionOf (wordBits x) := by
  rw [wordBits_neg number]
  exact (fields_wordOf (biasedOf_lt _) (fractionOf_lt _)).2

theorem isInf_neg : (-x).isInf = x.isInf := by
  obtain ⟨biased, fraction⟩ := fields_neg number
  rw [Bool.eq_iff_iff, isInf_iff, isInf_iff, biased, fraction]

/-- A negative number is written as its opposite behind a minus. -/
theorem floatText_negative (finite : x.isInf = false) (negative : (parts x).negative = true)
    : floatText x = "-" ++ floatText (-x) := by
  obtain ⟨biased, fraction⟩ := fields_neg number
  have same : reach (parts (-x)) = reach (parts x)
      ∧ (parts (-x)).significand = (parts x).significand := by
    unfold reach
    rcases parts_fields x with ⟨small, significand, exponent⟩ | ⟨normal, significand, exponent⟩
    · rcases parts_fields (-x) with ⟨_, significand', exponent'⟩ | ⟨other, _⟩
      · simp only [significand, exponent, significand', exponent', fraction, and_self]
      · exact (other (biased.trans small)).elim
    · rcases parts_fields (-x) with ⟨other, _⟩ | ⟨_, significand', exponent'⟩
      · exact (normal (biased.symm.trans other)).elim
      · simp only [significand, exponent, significand', exponent', fraction, biased, and_self]
  have positive : (parts (-x)).negative = false := parts_positive.mpr (positive_neg number negative)
  simp only [floatText, number, finite, negative, isNaN_neg number, isInf_neg number, positive,
    shortest, same.1, same.2, Bool.false_eq_true, if_false, if_true, String.empty_append]
  split <;> rfl

end

/-- A numeral beyond every finite number denotes infinity. -/
def hugeNumeral : Numeral where
  whole := ['1']
  places := []
  exponent := some (false, ['9', '9', '9'])
  whole_ne_nil := cons_ne_nil _ _
  whole_digits := all_eq_true.mp rfl
  places_digits := nofun
  exponent_digits := by
    rintro _ _ ⟨⟩
    exact ⟨cons_ne_nil _ _, all_eq_true.mp rfl⟩
  marked := fun _ => rfl

theorem ofDecimal_hugeNumeral : ofDecimal false hugeNumeral.digits hugeNumeral.scale = infinity := rfl

theorem eq_infinity (infinite : x.isInf = true) (positive : signOf (wordBits x) = .positive)
    : x = infinity := by
  obtain ⟨biased, fraction⟩ := isInf_iff.mp infinite
  refine eq_of_wordBits ?_
  rw [← wordOf_fields (wordBits_lt x), positive, biased, fraction]
  rfl

/-! ### Numbers that literals denote -/

/-- What a decimal denotes is a number, and it is not negative. -/
theorem isNaN_ofDecimal (digits : Nat) (exponent : Int)
    : (ofDecimal false digits exponent).isNaN = false
      ∧ signOf (wordBits (ofDecimal false digits exponent)) = .positive := by
  have small {word : Nat} (finite : word < 2047 * 2 ^ 52)
      : (Float.ofBits (UInt64.ofNat word)).isNaN = false
        ∧ signOf (wordBits (Float.ofBits (UInt64.ofNat word))) = .positive := by
    have biased : biasedOf word ≠ 2047 := by
      unfold biasedOf
      omega
    have bits := wordBits_ofBits (by omega) fun full => (biased full).elim
    rw [Bool.eq_false_iff, Ne, isNaN_iff, bits]
    refine ⟨fun full => biased full.1, if_pos ?_⟩
    omega
  have rounded {found : Option Float} {num den : Nat} (pos : 0 < den)
      (h : found = nearest? false num den)
      : (found.getD infinity).isNaN = false
        ∧ signOf (wordBits (found.getD infinity)) = .positive := by
    subst h
    cases nearest : nearestBits? num den with
    | none =>
      rw [nearest?, nearest]
      exact ⟨rfl, rfl⟩
    | some word =>
      rw [nearest?, nearest]
      exact small (nearestBits?_lt pos nearest)
  unfold ofDecimal
  dsimp only
  split
  · exact ⟨rfl, rfl⟩
  · split
    · exact ⟨rfl, rfl⟩
    · split
      · exact rounded (by positivity) rfl
      · exact rounded Nat.one_pos rfl

end Fxml.Number
