import Underwriting.Number.Literal
import Underwriting.Proofs.Number.Nearest

/-! # The numbers that literals denote

A literal denotes an infinity, a NaN or the finite number nearest to the value that it states, and
only one number. Whenever a literal is turned into a number, it is this one; and that is so of
every literal whose value is in range, which it is unless it lies beyond the largest finite number
or has digits that get lost below the normal range.
-/
namespace Underwriting
open Binary64 (Rounds)

namespace Literal

/-- The value that a size states, if it is a finite one. -/
def Size.value? : Size → Option ℚ
  | .infinite => none
  | .notANumber => none
  | .decimal d => some (d.digits * 10 ^ d.exponent)
  | .hexadecimal digits exponent => some (digits * 2 ^ exponent)

/-- The number that a literal denotes. -/
inductive Denotes : Literal → Float → Prop where
  | infinite {negative : Bool} : Denotes ⟨negative, .infinite⟩ (Binary64.infinity negative)
  | notANumber {negative : Bool} : Denotes ⟨negative, .notANumber⟩ Binary64.nan
  | finite {negative : Bool} {size : Size} {q : ℚ} {x : Float} :
    size.value? = some q → Rounds negative q x → Denotes ⟨negative, size⟩ x

theorem Denotes.unique {l : Literal} {x y : Float} (hx : l.Denotes x) (hy : l.Denotes y) :
    x = y := by
  cases hx with
  | infinite =>
    cases hy with
    | infinite => rfl
    | finite h _ => cases h
  | notANumber =>
    cases hy with
    | notANumber => rfl
    | finite h _ => cases h
  | finite hq hx =>
    cases hy with
    | infinite => cases hq
    | notANumber => cases hq
    | finite hq' hy =>
      obtain rfl := Option.some.inj (hq.symm.trans hq')
      exact hx.unique hy

/-- A value to which a number is assigned without a range error: it is not rounded up beyond the
largest finite number, and if it is below the normal range when it is rounded, it is a number
itself. -/
def InRange (q : ℚ) : Prop :=
  q < 2 ^ 1024 - 2 ^ 970 ∧
    ((2 ^ 54 - 1) * 2 ^ (-1076 : Int) ≤ q ∨ ∃ n : Nat, q = n * 2 ^ (-1074 : Int))

theorem lowest_place : (2 : ℚ) ^ (-1074 : Int) = 4 * 2 ^ (-1076 : Int) := by
  rw [show (-1074 : Int) = 2 + -1076 from rfl, zpow_add₀ two_ne_zero]
  norm_num

theorem InRange.lt {q : ℚ} (h : InRange q) : q < 2 ^ 1024 :=
  h.1.trans (sub_lt_self _ (by positivity))

theorem InRange.le {q : ℚ} (h : InRange q) (hq : 0 < q) : 2 ^ (-1074 : Int) ≤ q := by
  rcases h.2 with hnormal | ⟨n, rfl⟩
  · refine le_trans ?_ hnormal
    rw [lowest_place]
    gcongr
    norm_num
  · have hn : 0 < n := by
      refine Nat.pos_of_ne_zero fun hzero => hq.ne' ?_
      rw [hzero, Nat.cast_zero, zero_mul]
    have hcast : (1 : ℚ) ≤ n := by exact_mod_cast hn
    exact le_mul_of_one_le_left (by positivity) hcast

theorem inRange_of_le {q : ℚ} (hlow : 1 ≤ q) (hhigh : q ≤ 2 ^ 53) : InRange q := by
  constructor
  · have hlimit : (2 : ℚ) ^ 1024 = 2 ^ 54 * 2 ^ 970 := (pow_add 2 54 970)
    have hunit : (1 : ℚ) ≤ 2 ^ 970 := one_le_pow₀ one_le_two
    rw [hlimit, ← sub_one_mul]
    calc q ≤ 2 ^ 53 := hhigh
      _ < (2 ^ 54 - 1) * 1 := by norm_num
      _ ≤ (2 ^ 54 - 1) * 2 ^ 970 := mul_le_mul_of_nonneg_left hunit (by norm_num)
  · refine Or.inl (le_trans ?_ hlow)
    calc (2 ^ 54 - 1 : ℚ) * 2 ^ (-1076 : Int) ≤ 2 ^ 54 * 2 ^ (-54 : Int) := by
          gcongr
          · exact (sub_one_lt _).le
          · exact one_le_two
          · decide
      _ = 1 := by norm_num

section Reading
variable {negative : Bool} {lowest : Int} {num den : Nat} {x : Float}

theorem rounds_of_inRange? (hden : 0 < den) (h : inRange? negative lowest num den = some x) :
    Rounds negative (num / den) x := by
  rw [inRange?] at h
  split at h
  · rename_i hzero
    obtain rfl := Option.some.inj h
    rw [hzero, Nat.cast_zero, zero_div]
    exact Binary64.rounds_zero negative
  · rename_i hnum
    obtain ⟨hfinite, h⟩ := Option.ite_none_left_eq_some.mp h
    obtain ⟨hkept, h⟩ := Option.ite_none_left_eq_some.mp h
    obtain rfl := Option.some.inj h
    obtain ⟨p, hp, hpattern, hnearest⟩ := Binary64.exists_isNearest_of_readMagnitude lowest
      (Nat.pos_of_ne_zero hnum) hden fun hsubnormal => by
        rw [isSubnormal, decide_eq_true hsubnormal, Bool.true_and, Bool.not_eq_true',
          Bool.not_eq_false] at hkept
        exact hkept
    rw [← hpattern] at hfinite ⊢
    exact Binary64.rounds_ofMagnitude negative hp (not_le.mp hfinite) hnearest

/-- Below the normal range every multiple of the lowest place is a number. -/
theorem canonical_of_belowNormal {n : Nat}
    (h : (n * 2 ^ (-1074 : Int) : ℚ) < (2 ^ 54 - 1) * 2 ^ (-1076 : Int)) :
    (⟨false, n, -1074⟩ : Binary64.Parts).Canonical := by
  rw [lowest_place, ← mul_assoc] at h
  have hunits : (n * 4 : ℚ) < 2 ^ 54 := by
    have hlast : (n * 4 : ℚ) < 2 ^ 54 - 1 := lt_of_mul_lt_mul_right h (by positivity)
    exact hlast.trans (sub_one_lt _)
  have hmantissa : n * 4 < 2 ^ 54 := by exact_mod_cast hunits
  exact ⟨by simp only; omega, le_rfl, fun _ => rfl⟩

theorem exists_inRange? (negative : Bool) (lowest : Int) (hden : 0 < den)
    (h : InRange (num / den)) : ∃ x, inRange? negative lowest num den = some x := by
  rw [inRange?]
  split
  · exact ⟨_, rfl⟩
  · rename_i hnonzero
    have hnum := Nat.pos_of_ne_zero hnonzero
    have hexact (hsubnormal : num * 2 ^ 1076 < (2 ^ 54 - 1) * den) :
        Binary64.isExact (Binary64.dropLoneDigit lowest num den).1
          (Binary64.dropLoneDigit lowest num den).2 = true := by
      have hbelow := (Binary64.belowNormal_iff hden).mp hsubnormal
      rcases h.2 with hnormal | ⟨n, hn⟩
      · exact absurd hnormal hbelow.not_ge
      · rw [hn] at hbelow
        have hp := canonical_of_belowNormal hbelow
        obtain ⟨hnum', hden', hsize⟩ := Binary64.dropLoneDigit_ratio hp lowest hnum hden hn
        exact Binary64.isExact_of_size hp hnum' hden' hsize
    obtain ⟨p, hp, hpattern, hnearest⟩ :=
      Binary64.exists_isNearest_of_readMagnitude lowest hnum hden hexact
    have hfinite := hp.pattern_lt_of_isNearest hnearest h.1
    rw [hpattern] at hfinite
    rw [if_neg hfinite.not_ge, if_neg]
    · exact ⟨_, rfl⟩
    · by_cases hsubnormal : num * 2 ^ 1076 < (2 ^ 54 - 1) * den
      · rw [isSubnormal, decide_eq_true hsubnormal, hexact hsubnormal]
        exact Bool.false_ne_true
      · rw [isSubnormal, decide_eq_false hsubnormal, Bool.false_and]
        exact Bool.false_ne_true

end Reading

/-! ## Decimal numerals -/

section Decimal
variable {d : Decimal} {num den : Nat}

theorem digits_of_range (h : d.range = .zero) : d.digits = 0 := by
  rw [Decimal.range] at h
  split at h
  · assumption
  · split at h
    · cases h
    · split at h
      · cases h
      · simp only at h
        split at h
        · cases h
        · cases h

theorem ratio_of_range (h : d.range = .ordinary num den) :
    0 < den ∧ (num / den : ℚ) = d.digits * 10 ^ d.exponent := by
  rw [Decimal.range] at h
  split at h
  · cases h
  · split at h
    · cases h
    · split at h
      · rename_i hexponent
        obtain ⟨rfl, rfl⟩ := Decimal.Range.ordinary.inj h
        obtain ⟨k, hk⟩ := Int.eq_ofNat_of_zero_le hexponent
        refine ⟨one_pos, ?_⟩
        rw [hk]
        push_cast
        rw [div_one, zpow_natCast]
        rfl
      · rename_i hexponent
        simp only at h
        split at h
        · cases h
        · obtain ⟨rfl, rfl⟩ := Decimal.Range.ordinary.inj h
          obtain ⟨k, hk⟩ : ∃ k : Nat, d.exponent = -k := ⟨d.exponent.natAbs, by omega⟩
          refine ⟨Nat.pow_pos (by decide), ?_⟩
          rw [hk, neg_neg, Int.toNat_natCast, zpow_neg, zpow_natCast, ← div_eq_mul_inv]
          push_cast
          rfl

theorem two_pow_le_ten_pow {m n : Nat} (h : 2 ^ m ≤ 10 ^ n) : (2 : ℚ) ^ m ≤ 10 ^ n := by
  have hcast : ((2 ^ m : Nat) : ℚ) ≤ (10 ^ n : Nat) := Nat.cast_le.mpr h
  rwa [Nat.cast_pow, Nat.cast_pow, Nat.cast_ofNat, Nat.cast_ofNat] at hcast

theorem lt_ten_pow_digitBound (n : Nat) : n < 10 ^ Decimal.digitBound n := by
  calc n < 2 ^ (n.log2 + 1) := Nat.lt_log2_self
    _ ≤ 2 ^ (3 * Decimal.digitBound n) :=
      Nat.pow_le_pow_right (by decide) (by rw [Decimal.digitBound]; omega)
    _ = (2 ^ 3) ^ Decimal.digitBound n := Nat.pow_mul 2 3 _
    _ ≤ 10 ^ Decimal.digitBound n := Nat.pow_le_pow_left (by decide) _

theorem exists_range (h : InRange (d.digits * 10 ^ d.exponent)) :
    d.range = .zero ∨ ∃ num den, d.range = .ordinary num den := by
  rw [Decimal.range]
  split
  · exact Or.inl rfl
  · rename_i hdigits
    have hdigitsPos : (1 : ℚ) ≤ d.digits := by
      exact_mod_cast Nat.one_le_iff_ne_zero.mpr hdigits
    split
    · rename_i hhuge
      rw [Decimal.largestPower] at hhuge
      refine absurd h.lt (not_lt.mpr ?_)
      calc (2 : ℚ) ^ 1024 ≤ 10 ^ 310 := two_pow_le_ten_pow (by decide +kernel)
        _ = 10 ^ (310 : Int) := (zpow_ofNat 10 310).symm
        _ ≤ 10 ^ d.exponent := zpow_le_zpow_right₀ (by norm_num) hhuge.le
        _ ≤ d.digits * 10 ^ d.exponent := le_mul_of_one_le_left (by positivity) hdigitsPos
    · split
      · exact Or.inr ⟨_, _, rfl⟩
      · simp only
        split
        · rename_i htiny
          rw [Decimal.smallestPower] at htiny
          refine absurd (h.le (by positivity)) (not_le.mpr ?_)
          have hbound : (d.digits : ℚ) < 10 ^ Decimal.digitBound d.digits := by
            exact_mod_cast lt_ten_pow_digitBound d.digits
          calc (d.digits : ℚ) * 10 ^ d.exponent
              < 10 ^ (Decimal.digitBound d.digits) * 10 ^ d.exponent := by gcongr
            _ = 10 ^ ((Decimal.digitBound d.digits : Int) + d.exponent) := by
              rw [zpow_add₀ (by norm_num), zpow_natCast]
            _ ≤ 10 ^ (-330 : Int) := zpow_le_zpow_right₀ (by norm_num) (by omega)
            _ ≤ 2 ^ (-1074 : Int) := by
              rw [zpow_neg, zpow_neg, zpow_ofNat, zpow_ofNat]
              exact inv_anti₀ (by positivity) (two_pow_le_ten_pow (by decide +kernel))
        · exact Or.inr ⟨_, _, rfl⟩

end Decimal

/-! ## Reading literals -/

/-- The value of a hexadecimal numeral, as the quotient that it is read from. -/
theorem hexadecimal_ratio (digits : Nat) (exponent : Int) :
    (0 ≤ exponent → ((digits * 2 ^ exponent.toNat : Nat) / (1 : Nat) : ℚ) = digits * 2 ^ exponent) ∧
      (exponent < 0 → (digits / (2 ^ (-exponent).toNat : Nat) : ℚ) = digits * 2 ^ exponent) := by
  constructor
  · intro h
    obtain ⟨k, rfl⟩ := Int.eq_ofNat_of_zero_le h
    push_cast
    rw [div_one, zpow_natCast]
    rfl
  · intro h
    obtain ⟨k, rfl⟩ : ∃ k : Nat, exponent = -k := ⟨exponent.natAbs, by omega⟩
    rw [neg_neg, Int.toNat_natCast, zpow_neg, zpow_natCast, ← div_eq_mul_inv]
    push_cast
    rfl

theorem hexadecimal_bounds {digits : Nat} {exponent : Int} (hdigits : digits ≠ 0)
    (h : InRange (digits * 2 ^ exponent)) :
    exponent ≤ largestBinary ∧ (-exponent).toNat ≤ digits.log2 + 1 + largestBinary := by
  have hdigitsPos : (1 : ℚ) ≤ digits := by
    exact_mod_cast Nat.one_le_iff_ne_zero.mpr hdigits
  rw [largestBinary]
  constructor
  · by_contra hhuge
    refine absurd h.lt (not_lt.mpr ?_)
    calc (2 : ℚ) ^ 1024 = 2 ^ (1024 : Int) := (zpow_ofNat 2 1024).symm
      _ ≤ 2 ^ exponent := zpow_le_zpow_right₀ one_le_two (by omega)
      _ ≤ digits * 2 ^ exponent := le_mul_of_one_le_left (by positivity) hdigitsPos
  · by_contra htiny
    refine absurd (h.le (by positivity)) (not_le.mpr ?_)
    have hbound := (Binary64.log2_bounds (Nat.pos_of_ne_zero hdigits)).2
    calc (digits : ℚ) * 2 ^ exponent < 2 ^ ((digits.log2 : Int) + 1) * 2 ^ exponent := by gcongr
      _ = 2 ^ ((digits.log2 : Int) + 1 + exponent) := (zpow_add₀ two_ne_zero _ _).symm
      _ ≤ 2 ^ (-1074 : Int) := zpow_le_zpow_right₀ one_le_two (by omega)

theorem denotes_of_toFloat? {l : Literal} {x : Float} (h : l.toFloat? = some x) :
    l.Denotes x := by
  obtain ⟨negative, size⟩ := l
  cases size with
  | infinite =>
    obtain rfl := Option.some.inj h
    exact .infinite
  | notANumber =>
    obtain rfl := Option.some.inj h
    exact .notANumber
  | decimal d =>
    refine .finite rfl ?_
    simp only [toFloat?] at h
    split at h
    · rename_i hrange
      obtain rfl := Option.some.inj h
      rw [digits_of_range hrange, Nat.cast_zero, zero_mul]
      exact Binary64.rounds_zero negative
    · cases h
    · cases h
    · rename_i num den hrange
      obtain ⟨hden, hratio⟩ := ratio_of_range hrange
      rw [← hratio]
      exact rounds_of_inRange? hden h
  | hexadecimal digits exponent =>
    refine .finite rfl ?_
    obtain ⟨hup, hdown⟩ := hexadecimal_ratio digits exponent
    simp only [toFloat?] at h
    split at h
    · rename_i hzero
      obtain rfl := Option.some.inj h
      rw [hzero, Nat.cast_zero, zero_mul]
      exact Binary64.rounds_zero negative
    · split at h
      · cases h
      · split at h
        · rename_i hexponent
          rw [← hup hexponent]
          exact rounds_of_inRange? one_pos h
        · rename_i hexponent
          split at h
          · cases h
          · rw [← hdown (not_le.mp hexponent)]
            exact rounds_of_inRange? (Nat.two_pow_pos _) h

/-- A literal that denotes a number is turned into it, if the value of the literal is in range. -/
theorem toFloat?_of_denotes {l : Literal} {x : Float} (hx : l.Denotes x)
    (h : ∀ q, l.size.value? = some q → InRange q) : l.toFloat? = some x := by
  have hread : ∃ y, l.toFloat? = some y := by
    obtain ⟨negative, size⟩ := l
    cases size with
    | infinite => exact ⟨_, rfl⟩
    | notANumber => exact ⟨_, rfl⟩
    | decimal d =>
      have hvalue := h _ rfl
      rw [toFloat?]
      rcases exists_range hvalue with hrange | ⟨num, den, hrange⟩
      · simp only [hrange]
        exact ⟨_, rfl⟩
      · obtain ⟨hden, hratio⟩ := ratio_of_range hrange
        simp only [hrange]
        rw [← hratio] at hvalue
        exact exists_inRange? negative _ hden hvalue
    | hexadecimal digits exponent =>
      have hvalue := h _ rfl
      obtain ⟨hup, hdown⟩ := hexadecimal_ratio digits exponent
      simp only [toFloat?]
      split
      · exact ⟨_, rfl⟩
      · rename_i hdigits
        obtain ⟨hlargest, hsmallest⟩ := hexadecimal_bounds hdigits hvalue
        rw [if_neg (not_lt.mpr hlargest)]
        split
        · rename_i hexponent
          rw [← hup hexponent] at hvalue
          exact exists_inRange? negative _ one_pos hvalue
        · rename_i hexponent
          rw [if_neg (not_lt.mpr hsmallest)]
          rw [← hdown (not_le.mp hexponent)] at hvalue
          exact exists_inRange? negative _ (Nat.two_pow_pos _) hvalue
  obtain ⟨y, hy⟩ := hread
  rw [hy, (denotes_of_toFloat? hy).unique hx]

end Literal
end Underwriting
