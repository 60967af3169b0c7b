import Mathlib
import Underwriting.Number.Binary64

/-! # Patterns of binary64 numbers

A pattern that is no NaN is kept by the number made from it, so sign and magnitude can be
read off again. Integers of at most 53 binary digits have exact numbers, and such a number
is read as the integer that it was made from.
-/
namespace Underwriting.Binary64
open Float.Model (Format)
open Float.Model.UnpackedFloat

theorem toNat_unpackExponent (v : BitVec 64) :
    (@unpackExponent Format.binary64 v).toNat = v.toNat / 2 ^ 52 % 2 ^ 11 := by
  simp [unpackExponent, BitVec.extractLsb, Nat.shiftRight_eq_div_pow]

theorem toNat_unpackMantissa (v : BitVec 64) :
    (@unpackMantissa Format.binary64 v).toNat = v.toNat % 2 ^ 52 := by
  simp [unpackMantissa, BitVec.extractLsb]

theorem isNaNBits_eq_false {v : BitVec 64} (h : v.toNat % 2 ^ 63 ≤ infinityPattern) :
    @isNaNBits Format.binary64 v = false := by
  rw [isNaNBits, decide_eq_false_iff_not]
  rintro ⟨hexponent, hmantissa⟩
  have he := toNat_unpackExponent v
  have hm := toNat_unpackMantissa v
  have hones : (@unpackExponent Format.binary64 v).toNat = 2047 := by
    rw [hexponent]
    rfl
  refine hmantissa (BitVec.eq_of_toNat_eq ?_)
  rw [hm, BitVec.toNat_ofNat, Nat.zero_mod]
  rw [infinityPattern] at h
  omega

theorem toBits_ofBits (b : UInt64) (h : b.toNat % 2 ^ 63 ≤ infinityPattern) :
    (Float.ofBits b).toBits = b := by
  have hkept : pack Format.binary64 (unpack Format.binary64 b.toBitVec) = b.toBitVec := by
    rw [@pack_unpack Format.binary64 b.toBitVec (by decide), isNaNBits_eq_false h]
    rfl
  exact congrArg UInt64.ofBitVec hkept

theorem toNat_toBits_ofMagnitude (negative : Bool) (pattern : Nat) :
    (ofMagnitude negative pattern).toBits.toNat =
      min pattern infinityPattern + if negative then 2 ^ 63 else 0 := by
  have hmin : min pattern infinityPattern ≤ 2047 * 2 ^ 52 := Nat.min_le_right _ _
  have hsize : (min pattern infinityPattern + if negative then 2 ^ 63 else 0) < 2 ^ 64 := by
    split <;> omega
  rw [ofMagnitude, toBits_ofBits]
  · exact UInt64.toNat_ofNat_of_lt' hsize
  · rw [UInt64.toNat_ofNat_of_lt' hsize, infinityPattern]
    split <;> omega

@[simp] theorem magnitude_ofMagnitude (negative : Bool) (pattern : Nat) :
    magnitude (ofMagnitude negative pattern) = min pattern infinityPattern := by
  have hmin : min pattern infinityPattern ≤ 2047 * 2 ^ 52 := Nat.min_le_right _ _
  rw [magnitude, toNat_toBits_ofMagnitude]
  split <;> omega

@[simp] theorem isNegative_ofMagnitude (negative : Bool) (pattern : Nat) :
    isNegative (ofMagnitude negative pattern) = negative := by
  have hmin : min pattern infinityPattern ≤ 2047 * 2 ^ 52 := Nat.min_le_right _ _
  rw [isNegative, toNat_toBits_ofMagnitude]
  cases negative with
  | false =>
    refine decide_eq_false ?_
    simp only [if_neg Bool.false_ne_true]
    omega
  | true =>
    refine decide_eq_true ?_
    simp only [if_true]
    omega

/-- The exact value of a number whose magnitude has this exponent field, neither zero nor
the one of infinities, and this fraction. -/
theorem parts?_ofMagnitude_normal (negative : Bool) (field fraction : Nat) (hpos : 0 < field)
    (hfield : field < 2047) (hfraction : fraction < 2 ^ 52) :
    parts? (ofMagnitude negative (field * 2 ^ 52 + fraction)) =
      some ⟨negative, 2 ^ 52 + fraction, (field : Int) - 1075⟩ := by
  have hmin : min (field * 2 ^ 52 + fraction) infinityPattern = field * 2 ^ 52 + fraction := by
    rw [infinityPattern]
    omega
  have hdiv : (field * 2 ^ 52 + fraction) / 2 ^ 52 = field := by omega
  have hmod : (field * 2 ^ 52 + fraction) % 2 ^ 52 = fraction := by omega
  simp only [parts?, magnitude_ofMagnitude, isNegative_ofMagnitude, hmin, hdiv, hmod]
  rw [if_neg (by omega), if_neg (by omega)]

theorem toInt?_ofMagnitude_zero (negative : Bool) :
    toInt? (ofMagnitude negative 0) = some 0 := by
  have hparts : parts? (ofMagnitude negative 0) = some ⟨negative, 0, -1074⟩ := by
    simp [parts?]
  simp only [toInt?, hparts, Nat.zero_mod, Nat.zero_div]
  cases negative <;> rfl

/-! ## Integers -/

theorem leadingExponent_nat (n : Nat) (hn : 0 < n) : leadingExponent n 1 = n.log2 := by
  have hbelow : ¬ n < 2 ^ n.log2 := Nat.not_lt.mpr (Nat.log2_self_le (by omega))
  have hone : Nat.log2 1 = 0 := by decide
  simp [leadingExponent, hone, hbelow]

def integerMantissa (n : Nat) : Nat := n * 2 ^ (52 - n.log2)

theorem integerMantissa_bounds {n : Nat} (hn : 0 < n) (hlt : n < 2 ^ 53) :
    2 ^ 52 ≤ integerMantissa n ∧ integerMantissa n < 2 ^ 53 := by
  have hlog : n.log2 < 53 := (Nat.log2_lt (by omega)).mpr hlt
  have hlow := Nat.mul_le_mul_right (2 ^ (52 - n.log2)) (Nat.log2_self_le (n := n) (by omega))
  have hhigh := Nat.mul_lt_mul_of_pos_right (Nat.lt_log2_self (n := n))
    (Nat.two_pow_pos (52 - n.log2))
  rw [← Nat.pow_add] at hlow hhigh
  rw [show n.log2 + (52 - n.log2) = 52 by omega] at hlow
  rw [show n.log2 + 1 + (52 - n.log2) = 53 by omega] at hhigh
  exact ⟨hlow, hhigh⟩

/-- Nothing is rounded away from an integer of at most 53 digits. -/
theorem nearestMagnitude_nat {n : Nat} (hn : 0 < n) (hlt : n < 2 ^ 53) :
    nearestMagnitude n 1 =
      (n.log2 + 1023) * 2 ^ 52 + (integerMantissa n - 2 ^ 52) := by
  have hlog : n.log2 < 53 := (Nat.log2_lt (by omega)).mpr hlt
  obtain ⟨hlow, -⟩ := integerMantissa_bounds hn hlt
  have hplace : lastPlace n 1 = (n.log2 : Int) - 52 := by
    rw [lastPlace, leadingExponent_nat n hn]
    omega
  have hscaled : scaled n 1 ((n.log2 : Int) - 52) = (integerMantissa n, 1) := by
    rw [scaled]
    split
    · rw [integerMantissa]
      have h52 : n.log2 = 52 := by omega
      simp [h52]
    · rw [integerMantissa]
      congr 3
      omega
  have hround : roundHalfEven (integerMantissa n) 1 = integerMantissa n := by
    simp [roundHalfEven, Nat.mod_one]
  rw [nearestMagnitude, if_neg (by omega)]
  simp only [hplace, hscaled, hround]
  have hshift : ((n.log2 : Int) - 52 + 1074).toNat = n.log2 + 1022 := by omega
  rw [hshift]
  omega

theorem parts?_ofRatio_nat (negative : Bool) {n : Nat} (hn : 0 < n) (hlt : n < 2 ^ 53) :
    parts? (ofRatio negative n 1) = some ⟨negative, integerMantissa n, (n.log2 : Int) - 52⟩ := by
  have hlog : n.log2 < 53 := (Nat.log2_lt (by omega)).mpr hlt
  obtain ⟨hlow, hhigh⟩ := integerMantissa_bounds hn hlt
  have hparts := parts?_ofMagnitude_normal negative (n.log2 + 1023) (integerMantissa n - 2 ^ 52)
    (by omega) (by omega) (by omega)
  have hexponent : ((n.log2 + 1023 : Nat) : Int) - 1075 = (n.log2 : Int) - 52 := by omega
  rw [ofRatio, nearestMagnitude_nat hn hlt, hparts, Nat.add_sub_cancel' hlow, hexponent]

theorem toInt?_ofRatio_nat (negative : Bool) {n : Nat} (hn : 0 < n) (hlt : n < 2 ^ 53) :
    toInt? (ofRatio negative n 1) = some (Integer.ofSize negative n) := by
  have hlog : n.log2 < 53 := (Nat.log2_lt (by omega)).mpr hlt
  have hscale : ((n.log2 : Int) - 52).natAbs = 52 - n.log2 := by omega
  simp only [toInt?, parts?_ofRatio_nat negative hn hlt, hscale, integerMantissa]
  have hpos := Nat.two_pow_pos (52 - n.log2)
  split
  · have h52 : n.log2 = 52 := by omega
    simp [h52]
  · rw [if_pos (Nat.mul_mod_left _ _), Nat.mul_div_cancel _ hpos]
    rfl

theorem toInt?_ofInt {n : Int} (h : n.natAbs < 2 ^ 53) : toInt? (ofInt n) = some n := by
  rw [ofInt]
  by_cases h0 : n = 0
  · subst h0
    exact toInt?_ofMagnitude_zero _
  · rw [toInt?_ofRatio_nat _ (by omega) h]
    by_cases hneg : n < 0
    · simp only [Integer.ofSize, hneg, decide_true, if_true]
      congr 1
      omega
    · simp only [Integer.ofSize, hneg, decide_false, if_neg Bool.false_ne_true]
      congr 1
      omega

theorem toInt32?_ofInt32 (n : Int32) : toInt32? (ofInt32 n) = some n := by
  have hlow := n.le_toInt
  have hhigh := n.toInt_lt
  rw [toInt32?, ofInt32, toInt?_ofInt (by omega), Option.bind_some, Integer.toInt32?,
    if_pos ⟨hlow, hhigh⟩, Int32.ofInt_toInt]

theorem isFinite_ofInt32 (n : Int32) : isFinite (ofInt32 n) = true := by
  have hread := toInt32?_ofInt32 n
  rw [isFinite, Option.isSome_iff_ne_none]
  intro hnone
  rw [toInt32?, toInt?, hnone] at hread
  cases hread

end Underwriting.Binary64
