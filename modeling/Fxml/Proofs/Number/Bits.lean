import Fxml.Number.Binary64
import Mathlib

/-! The bits of floating-point numbers: sign, exponent and fraction are parts of one whole number, and
the number is made of its bits again.
-/

namespace Fxml.Number

open Float.Model Float.Model.UnpackedFloat

variable {x : Float} {word fraction biased : Nat} {s : Sign}

/-! ### The fields of a word -/

/-- The number that a sign, a biased exponent and a fraction stand for. -/
def ofFields (s : Sign) (biased fraction : Nat) : UnpackedFloat :=
  if biased = 2047 then if fraction = 0 then .infinity s else .notANumber
  else if biased = 0 then
    if h : fraction = 0 then .zero s else .finite s fraction (-1074) (Nat.pos_of_ne_zero h)
  else .finite s (2 ^ 52 + fraction) ((biased : Int) - 1075) (by positivity)

/-- A sign, a biased exponent and a fraction as one number. -/
def wordOf (s : Sign) (biased fraction : Nat) : Nat :=
  s.toBitVec.toNat * 2 ^ 63 + biased * 2 ^ 52 + fraction

def signOf (word : Nat) : Sign := if word / 2 ^ 63 = 0 then .positive else .negative

def biasedOf (word : Nat) : Nat := word / 2 ^ 52 % 2 ^ 11

def fractionOf (word : Nat) : Nat := word % 2 ^ 52

theorem wordOf_fields (h : word < 2 ^ 64)
    : wordOf (signOf word) (biasedOf word) (fractionOf word) = word := by
  unfold wordOf signOf biasedOf fractionOf
  split
  · simp only [Sign.toBitVec, BitVec.toNat_ofNat]
    omega
  · simp only [Sign.toBitVec, BitVec.toNat_ofNat]
    omega

theorem biasedOf_lt (word : Nat) : biasedOf word < 2 ^ 11 := Nat.mod_lt _ (by decide)

theorem fractionOf_lt (word : Nat) : fractionOf word < 2 ^ 52 := Nat.mod_lt _ (by decide)

theorem fields_wordOf (hb : biased < 2 ^ 11) (hf : fraction < 2 ^ 52)
    : signOf (wordOf s biased fraction) = s
      ∧ biasedOf (wordOf s biased fraction) = biased
      ∧ fractionOf (wordOf s biased fraction) = fraction := by
  unfold wordOf signOf biasedOf fractionOf
  cases s with
  | negative =>
    simp only [Sign.toBitVec, BitVec.toNat_ofNat]
    refine ⟨if_neg ?_, ?_, ?_⟩ <;> omega
  | positive =>
    simp only [Sign.toBitVec, BitVec.toNat_ofNat]
    refine ⟨if_pos ?_, ?_, ?_⟩ <;> omega

theorem toNat_unpackMantissa (b : BitVec 64)
    : (@unpackMantissa .binary64 b).toNat = fractionOf b.toNat := by
  simp [unpackMantissa, fractionOf]

theorem toNat_unpackExponent (b : BitVec 64)
    : (@unpackExponent .binary64 b).toNat = biasedOf b.toNat := by
  simp [unpackExponent, biasedOf, Nat.shiftRight_eq_div_pow]

theorem ofBitVec_unpackSign (b : BitVec 64)
    : Sign.ofBitVec (@unpackSign .binary64 b) = signOf b.toNat := by
  have sign : (@unpackSign .binary64 b).toNat = b.toNat / 2 ^ 63 := by
    simp only [unpackSign, BitVec.toNat_cast, BitVec.extractLsb_toNat, Nat.shiftRight_eq_div_pow]
    omega
  have zero : @unpackSign .binary64 b = 0#1 ↔ b.toNat / 2 ^ 63 = 0 := by
    rw [← BitVec.toNat_inj, sign]
    rfl
  simp only [Sign.ofBitVec, signOf, zero]

theorem toNat_packComponents (s : Sign) (e : BitVec 11) (m : BitVec 52)
    : (packComponents .binary64 s e m).toNat = wordOf s e.toNat m.toNat := by
  unfold packComponents wordOf
  rw [BitVec.toNat_append, BitVec.toNat_append, ← Nat.shiftLeft_add_eq_or_of_lt e.isLt,
    ← Nat.shiftLeft_add_eq_or_of_lt m.isLt]
  simp only [Nat.shiftLeft_eq]
  omega

theorem unpack_eq (b : BitVec 64)
    : UnpackedFloat.unpack .binary64 b = ofFields (signOf b.toNat) (biasedOf b.toNat) (fractionOf b.toNat) := by
  have exponent := toNat_unpackExponent b
  have mantissa := toNat_unpackMantissa b
  have full : @unpackExponent .binary64 b = -1#_ ↔ biasedOf b.toNat = 2047 := by
    rw [← BitVec.toNat_inj, exponent]
    rfl
  have zero : @unpackExponent .binary64 b = 0#_ ↔ biasedOf b.toNat = 0 := by
    rw [← BitVec.toNat_inj, exponent]
    rfl
  have whole : @unpackMantissa .binary64 b = 0#_ ↔ fractionOf b.toNat = 0 := by
    rw [← BitVec.toNat_inj, mantissa]
    rfl
  have implicit : (1#1 ++ @unpackMantissa .binary64 b).toNat = 2 ^ 52 + fractionOf b.toNat := by
    rw [BitVec.toNat_append, ← Nat.shiftLeft_add_eq_or_of_lt (BitVec.isLt _), mantissa]
    simp [Nat.shiftLeft_eq]
  unfold UnpackedFloat.unpack ofFields
  simp only [full, zero, whole, exponent, mantissa, implicit, ofBitVec_unpackSign]
  split
  · rfl
  · split
    · rename_i small
      split
      · rfl
      · rw [small]
        rfl
    · rfl

theorem toNat_pack_ofFields (hb : biased < 2 ^ 11) (hf : fraction < 2 ^ 52)
    (number : biased = 2047 → fraction = 0)
    : (UnpackedFloat.pack .binary64 (ofFields s biased fraction)).toNat = wordOf s biased fraction := by
  unfold ofFields
  split
  · rename_i full
    rw [if_pos (number full), UnpackedFloat.pack, packedInfinity, toNat_packComponents, full,
      number full]
    rfl
  · split
    · rename_i small
      split
      · rename_i whole
        rw [UnpackedFloat.pack, packedZero, toNat_packComponents, small, whole]
        rfl
      · rename_i nonzero
        -- A subnormal number has no leading bit, so its fraction is short of a full mantissa.
        have log : fraction.log2 < 52 := (Nat.log2_lt nonzero).mpr hf
        have lower : ¬fraction.log2 + 1 = Format.binary64.mantissaBits := by
          change ¬fraction.log2 + 1 = 53
          omega
        have mantissa : (BitVec.ofNat 52 fraction).toNat = fraction := by
          rw [BitVec.toNat_ofNat, Nat.mod_eq_of_lt hf]
        rw [UnpackedFloat.pack]
        rw [if_neg (by decide), if_neg lower, toNat_packComponents, mantissa, small]
        rfl
    · have log : (2 ^ 52 + fraction).log2 = 52 := by
        rw [Nat.log2_eq_iff (by omega)]
        omega
      -- A normal number is shifted by 1075, that is by the bias and the width of the fraction.
      have bias : ((biased : Int) - 1075 + Format.binary64.exponentBias
          + Format.binary64.mantissaBitsWithoutImplicit).toNat = biased := by
        change ((biased : Int) - 1075 + (1023 : Nat) + (52 : Nat)).toNat = biased
        omega
      have exponent : (BitVec.ofNat 11 biased).toNat = biased := by
        rw [BitVec.toNat_ofNat, Nat.mod_eq_of_lt hb]
      have mantissa : (BitVec.ofNat 52 (2 ^ 52 + fraction)).toNat = fraction := by
        rw [BitVec.toNat_ofNat]
        omega
      have small : ¬2 ^ Format.binary64.exponentBits ≤ biased + 1 := by
        change ¬2 ^ 11 ≤ biased + 1
        omega
      rw [UnpackedFloat.pack]
      rw [bias, log, if_neg small, if_pos (by decide), toNat_packComponents, exponent, mantissa]

/-! ### Floating-point numbers -/

/-- The bits of a number as one whole number. -/
def wordBits (x : Float) : Nat := x.toBits.toNat

theorem wordBits_lt (x : Float) : wordBits x < 2 ^ 64 := x.toBits.toNat_lt

theorem eq_of_wordBits {y : Float} (h : wordBits x = wordBits y) : x = y := by
  obtain ⟨⟨a, _⟩⟩ := x
  cases UInt64.toNat_inj.mp h
  rfl

theorem unpack_toModel (x : Float)
    : x.toModel.unpack
      = ofFields (signOf (wordBits x)) (biasedOf (wordBits x)) (fractionOf (wordBits x)) :=
  unpack_eq x.toModel.toBits.toBitVec

theorem isNaN_iff
    : x.isNaN = true ↔ biasedOf (wordBits x) = 2047 ∧ fractionOf (wordBits x) ≠ 0 := by
  change x.toModel.unpack.isNaN = true ↔ _
  rw [unpack_toModel, ofFields]
  split
  · split <;> simp_all [UnpackedFloat.isNaN]
  · split
    · split <;> simp_all [UnpackedFloat.isNaN]
    · simp_all [UnpackedFloat.isNaN]

theorem isInf_iff
    : x.isInf = true ↔ biasedOf (wordBits x) = 2047 ∧ fractionOf (wordBits x) = 0 := by
  change x.toModel.unpack.isInf = true ↔ _
  rw [unpack_toModel, ofFields]
  split
  · split <;> simp_all [UnpackedFloat.isInf]
  · split
    · split <;> simp_all [UnpackedFloat.isInf]
    · simp_all [UnpackedFloat.isInf]

theorem wordBits_ofBits (h : word < 2 ^ 64) (number : biasedOf word = 2047 → fractionOf word = 0)
    : wordBits (Float.ofBits (UInt64.ofNat word)) = word := by
  have bits : (UInt64.ofNat word).toBitVec.toNat = word := by
    exact Nat.mod_eq_of_lt h
  change (UnpackedFloat.pack .binary64
    (UnpackedFloat.unpack .binary64 (UInt64.ofNat word).toBitVec)).toNat = word
  rw [unpack_eq, bits, toNat_pack_ofFields (biasedOf_lt word) (fractionOf_lt word) number,
    wordOf_fields h]

theorem ofBits_wordBits (number : x.isNaN = false)
    : Float.ofBits (UInt64.ofNat (wordBits x)) = x := by
  refine eq_of_wordBits (wordBits_ofBits (wordBits_lt x) fun full => ?_)
  by_contra fraction
  exact Bool.false_ne_true (number.symm.trans (isNaN_iff.mpr ⟨full, fraction⟩))

theorem neg_ofFields (s : Sign) (biased fraction : Nat)
    : (ofFields s biased fraction).neg = ofFields (-s) biased fraction := by
  unfold ofFields
  split
  · split <;> rfl
  · split
    · split <;> rfl
    · rfl

section

variable (number : x.isNaN = false)
include number

theorem wordBits_neg
    : wordBits (-x)
      = wordOf (-signOf (wordBits x)) (biasedOf (wordBits x)) (fractionOf (wordBits x)) := by
  change (UnpackedFloat.pack .binary64 x.toModel.unpack.neg).toNat = _
  rw [unpack_toModel, neg_ofFields]
  refine toNat_pack_ofFields (biasedOf_lt _) (fractionOf_lt _) fun full => ?_
  by_contra fraction
  exact Bool.false_ne_true (number.symm.trans (isNaN_iff.mpr ⟨full, fraction⟩))

theorem isNaN_neg : (-x).isNaN = false := by
  rw [Bool.eq_false_iff, Ne, isNaN_iff, wordBits_neg number]
  obtain ⟨_, biased, fraction⟩ := fields_wordOf (s := -signOf (wordBits x)) (biasedOf_lt (wordBits x))
    (fractionOf_lt (wordBits x))
  rw [biased, fraction, ← isNaN_iff, number]
  exact Bool.false_ne_true

theorem signOf_neg : signOf (wordBits (-x)) = -signOf (wordBits x) := by
  rw [wordBits_neg number]
  exact (fields_wordOf (biasedOf_lt _) (fractionOf_lt _)).1

theorem neg_neg_of_number : -(-x) = x := by
  refine eq_of_wordBits ?_
  obtain ⟨sign, biased, fraction⟩ := fields_wordOf (s := -signOf (wordBits x))
    (biasedOf_lt (wordBits x)) (fractionOf_lt (wordBits x))
  have twice : -(-signOf (wordBits x)) = signOf (wordBits x) := by
    cases signOf (wordBits x) <;> rfl
  rw [wordBits_neg (isNaN_neg number), wordBits_neg number, sign, biased, fraction, twice,
    wordOf_fields (wordBits_lt x)]

end

theorem parts_negative : (parts x).negative = true ↔ signOf (wordBits x) = .negative := by
  have := wordBits_lt x
  unfold parts signOf wordBits at *
  split <;> simp <;> omega

theorem parts_positive : (parts x).negative = false ↔ signOf (wordBits x) = .positive := by
  rw [Bool.eq_false_iff, Ne, parts_negative]
  cases signOf (wordBits x) <;> simp

theorem positive_neg (number : x.isNaN = false) (negative : (parts x).negative = true)
    : signOf (wordBits (-x)) = .positive := by
  rw [signOf_neg number, parts_negative.mp negative]
  rfl

end Fxml.Number
