import Mathlib.Algebra.Order.Field.Power
import Mathlib.Data.Rat.Cast.Order
import Mathlib.Tactic.Positivity
import Underwriting.Number.Binary64

/-! # Exact values of binary64 numbers

A finite number stands for a rational number. Reading it as an integer gives exactly that
number, and fails exactly when it is not whole; the 32-bit reading fails besides when it is
out of range.
-/
namespace Underwriting.Binary64

/-- The rational number that these parts stand for. -/
def Parts.toRat (p : Parts) : ℚ :=
  (if p.negative then -1 else 1) * (p.mantissa * 2 ^ p.exponent)

/-- A finite number without a fraction, between these bounds. -/
def IsWholeBetween (low high : Int) (x : Float) : Prop :=
  ∃ p n, parts? x = some p ∧ p.toRat = (n : Int) ∧ low ≤ n ∧ n ≤ high

theorem cast_ofSize (negative : Bool) (size : Nat) :
    ((Integer.ofSize negative size : Int) : ℚ) = (if negative then -1 else 1) * size := by
  cases negative <;> simp [Integer.ofSize]

theorem signed_inj (negative : Bool) {q r : ℚ} :
    (if negative then -1 else 1) * q = (if negative then -1 else 1) * r ↔ q = r := by
  cases negative <;> simp

/-- The size of an integer is what its sign leaves over. -/
theorem exists_ofSize_of_toRat {p : Parts} {n : Int} (h : p.toRat = n) :
    ∃ size : Nat, (p.mantissa * 2 ^ p.exponent : ℚ) = size ∧
      n = Integer.ofSize p.negative size := by
  have hpos : (0 : ℚ) ≤ p.mantissa * 2 ^ p.exponent := by positivity
  rw [Parts.toRat] at h
  cases hsign : p.negative with
  | false =>
    have hn : (p.mantissa * 2 ^ p.exponent : ℚ) = n := by simpa [hsign] using h
    have h0 : 0 ≤ n := by exact_mod_cast hn ▸ hpos
    refine ⟨n.toNat, ?_, ?_⟩
    · rw [hn]
      exact_mod_cast (Int.toNat_of_nonneg h0).symm
    · simp only [Integer.ofSize, if_neg Bool.false_ne_true]
      exact (Int.toNat_of_nonneg h0).symm
  | true =>
    have hn : (p.mantissa * 2 ^ p.exponent : ℚ) = ((-n : Int) : ℚ) := by
      push_cast
      rw [← h, hsign]
      simp
    have h0 : 0 ≤ -n := by exact_mod_cast hn ▸ hpos
    refine ⟨(-n).toNat, ?_, ?_⟩
    · rw [hn]
      exact_mod_cast (Int.toNat_of_nonneg h0).symm
    · simp only [Integer.ofSize, if_true, Int.toNat_of_nonneg h0, neg_neg]

theorem mantissa_div_eq_iff {mantissa size k : Nat} :
    (mantissa * 2 ^ (-(k : Int)) : ℚ) = size ↔
      mantissa % 2 ^ k = 0 ∧ mantissa / 2 ^ k = size := by
  have hpos : 0 < 2 ^ k := Nat.two_pow_pos k
  have hcast : (mantissa * 2 ^ (-(k : Int)) : ℚ) = size ↔ mantissa = size * 2 ^ k := by
    rw [zpow_neg, zpow_natCast, ← div_eq_mul_inv, div_eq_iff (by positivity)]
    constructor
    · intro h
      exact_mod_cast h
    · intro h
      exact_mod_cast h
  rw [hcast]
  constructor
  · rintro rfl
    exact ⟨Nat.mul_mod_left _ _, Nat.mul_div_cancel _ hpos⟩
  · rintro ⟨hmod, rfl⟩
    exact (Nat.div_mul_cancel (Nat.dvd_of_mod_eq_zero hmod)).symm

theorem toInt?_eq_some_iff {x : Float} {n : Int} :
    toInt? x = some n ↔ ∃ p, parts? x = some p ∧ p.toRat = n := by
  rw [toInt?]
  cases hparts : parts? x with
  | none => simp
  | some p =>
    have hsize (size : Nat) : p.toRat = (Integer.ofSize p.negative size : Int) ↔
        (p.mantissa * 2 ^ p.exponent : ℚ) = size := by
      rw [Parts.toRat, cast_ofSize, signed_inj]
    simp only [Option.map_eq_some_iff, Option.some.injEq, exists_eq_left']
    by_cases hexp : 0 ≤ p.exponent
    · obtain ⟨k, hk⟩ := Int.eq_ofNat_of_zero_le hexp
      have hshift : (p.mantissa * 2 ^ p.exponent : ℚ) = (p.mantissa * 2 ^ k : Nat) := by
        rw [hk]
        push_cast
        rw [zpow_natCast]
      rw [if_pos hexp]
      constructor
      · rintro ⟨size, hsome, rfl⟩
        rw [hsize, hshift, ← Option.some.inj hsome, hk]
        rfl
      · intro h
        obtain ⟨size, hs, rfl⟩ := exists_ofSize_of_toRat h
        refine ⟨size, ?_, rfl⟩
        rw [hshift] at hs
        rw [← Nat.cast_injective hs, hk]
        rfl
    · obtain ⟨k, hk⟩ : ∃ k : Nat, p.exponent = -k := ⟨p.exponent.natAbs, by omega⟩
      have habs : p.exponent.natAbs = k := by omega
      rw [if_neg hexp, habs]
      constructor
      · rintro ⟨size, hsome, rfl⟩
        split at hsome
        · rename_i hmod
          rw [hsize, hk, mantissa_div_eq_iff]
          exact ⟨hmod, Option.some.inj hsome⟩
        · cases hsome
      · intro h
        obtain ⟨size, hs, rfl⟩ := exists_ofSize_of_toRat h
        rw [hk, mantissa_div_eq_iff] at hs
        exact ⟨size, by rw [if_pos hs.1, hs.2], rfl⟩

theorem exists_toInt32?_iff {x : Float} :
    (∃ n, toInt32? x = some n) ↔ IsWholeBetween (-2 ^ 31) (2 ^ 31 - 1) x := by
  simp only [toInt32?, Option.bind_eq_some_iff, toInt?_eq_some_iff]
  constructor
  · rintro ⟨n, i, ⟨p, hparts, hvalue⟩, hread⟩
    rw [Integer.toInt32?] at hread
    split at hread
    · rename_i hrange
      exact ⟨p, i, hparts, hvalue, hrange.1, by omega⟩
    · cases hread
  · rintro ⟨p, i, hparts, hvalue, hlow, hhigh⟩
    exact ⟨Int32.ofInt i, i, ⟨p, hparts, hvalue⟩, if_pos ⟨hlow, by omega⟩⟩

end Underwriting.Binary64
