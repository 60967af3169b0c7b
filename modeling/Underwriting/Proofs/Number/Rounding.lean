import Underwriting.Proofs.Number.Binary64

/-! # Rounding exact quotients

Whatever is computed with a quotient depends on its exact value alone. A quotient that is
itself the value of a finite number is rounded to the magnitude of that very number, also
where a lone last digit is looked for.
-/
namespace Underwriting.Binary64

/-! ## Leading digits and scaling -/

theorem scaled_den_pos (num : Nat) {den : Nat} (hden : 0 < den) (place : Int) :
    0 < (scaled num den place).2 := by
  rw [scaled]
  split
  · exact Nat.mul_pos hden (Nat.two_pow_pos _)
  · exact hden

theorem scaled_ratio (num den : Nat) (place : Int) :
    ((scaled num den place).1 / (scaled num den place).2 : ℚ) = num / den / 2 ^ place := by
  rw [scaled]
  split
  · rename_i h
    obtain ⟨k, rfl⟩ := Int.eq_ofNat_of_zero_le h
    push_cast
    rw [Int.toNat_natCast, zpow_natCast, div_div]
  · obtain ⟨k, rfl⟩ : ∃ k : Nat, place = -k := ⟨place.natAbs, by omega⟩
    push_cast
    rw [neg_neg, Int.toNat_natCast, zpow_neg, zpow_natCast, div_inv_eq_mul, div_mul_eq_mul_div]

theorem scaled_lt_iff (num : Nat) {den : Nat} (hden : 0 < den) (place : Int) :
    (scaled num den place).1 < (scaled num den place).2 ↔ (num / den : ℚ) < 2 ^ place := by
  have hpos : (0 : ℚ) < (scaled num den place).2 := by
    exact_mod_cast scaled_den_pos num hden place
  have hpow : (0 : ℚ) < 2 ^ place := by positivity
  rw [← div_lt_one hpow, ← scaled_ratio, div_lt_one hpos]
  exact Nat.cast_lt.symm

theorem log2_bounds {n : Nat} (hn : 0 < n) :
    (2 : ℚ) ^ (n.log2 : Int) ≤ n ∧ (n : ℚ) < 2 ^ ((n.log2 : Int) + 1) := by
  have hlow := Nat.log2_self_le (n := n) (by omega)
  have hhigh := Nat.lt_log2_self (n := n)
  constructor
  · rw [zpow_natCast]
    exact_mod_cast hlow
  · rw [← Nat.cast_succ, zpow_natCast]
    exact_mod_cast hhigh

/-- The leading digit of a quotient stands at most one place below where the lengths of
numerator and denominator put it. -/
theorem leadingExponent_bounds {num den : Nat} (hnum : 0 < num) (hden : 0 < den) :
    (2 : ℚ) ^ leadingExponent num den ≤ num / den ∧
      (num / den : ℚ) < 2 ^ (leadingExponent num den + 1) := by
  obtain ⟨hnumLow, hnumHigh⟩ := log2_bounds hnum
  obtain ⟨hdenLow, hdenHigh⟩ := log2_bounds hden
  have hdenPos : (0 : ℚ) < den := by exact_mod_cast hden
  generalize hguess : (num.log2 : Int) - den.log2 = guess
  have hlow : (2 : ℚ) ^ (guess - 1) ≤ num / den := by
    rw [le_div_iff₀ hdenPos]
    calc (2 : ℚ) ^ (guess - 1) * den ≤ 2 ^ (guess - 1) * 2 ^ ((den.log2 : Int) + 1) := by gcongr
      _ = 2 ^ (num.log2 : Int) := by
        rw [← zpow_add₀ two_ne_zero]
        congr 1
        omega
      _ ≤ num := hnumLow
  have hhigh : (num / den : ℚ) < 2 ^ (guess + 1) := by
    rw [div_lt_iff₀ hdenPos]
    calc (num : ℚ) < 2 ^ ((num.log2 : Int) + 1) := hnumHigh
      _ = 2 ^ (guess + 1) * 2 ^ (den.log2 : Int) := by
        rw [← zpow_add₀ two_ne_zero]
        congr 1
        omega
      _ ≤ 2 ^ (guess + 1) * den := by gcongr
  have hbelow : leadingExponent num den =
      if (num / den : ℚ) < 2 ^ guess then guess - 1 else guess := by
    have hiff := scaled_lt_iff num hden guess
    rw [scaled] at hiff
    rw [leadingExponent]
    simp only [hguess, ← hiff]
    split <;> simp only [decide_eq_true_eq]
  rw [hbelow]
  split
  · rename_i hlt
    rw [sub_add_cancel]
    exact ⟨hlow, hlt⟩
  · rename_i hge
    exact ⟨not_lt.mp hge, hhigh⟩

theorem leadingExponent_lt {num den : Nat} (hnum : 0 < num) (hden : 0 < den) {n : Int}
    (h : (num / den : ℚ) < 2 ^ n) : leadingExponent num den < n := by
  have hpow := (leadingExponent_bounds hnum hden).1.trans_lt h
  exact (zpow_lt_zpow_iff_right₀ one_lt_two).mp hpow

theorem le_leadingExponent {num den : Nat} (hnum : 0 < num) (hden : 0 < den) {n : Int}
    (h : (2 : ℚ) ^ n ≤ num / den) : n ≤ leadingExponent num den := by
  have hpow := h.trans_lt (leadingExponent_bounds hnum hden).2
  have hlt : n < leadingExponent num den + 1 := (zpow_lt_zpow_iff_right₀ one_lt_two).mp hpow
  omega

theorem roundHalfEven_exact {num den n : Nat} (hden : 0 < den) (h : (num / den : ℚ) = n) :
    roundHalfEven num den = n := by
  have hdenNe : (den : ℚ) ≠ 0 := by exact_mod_cast hden.ne'
  have hnum : num = n * den := by
    rw [div_eq_iff hdenNe] at h
    exact_mod_cast h
  rw [roundHalfEven, hnum, Nat.mul_mod_left, Nat.mul_div_cancel _ hden]
  simp [hden]

/-! ## Values of finite numbers -/

namespace Parts

/-- The sign apart, the number that these parts stand for. -/
def size (p : Parts) : ℚ := p.mantissa * 2 ^ p.exponent

/-- Parts of a finite number: the mantissa has 53 digits, or fewer in the lowest place. -/
structure Canonical (p : Parts) : Prop where
  mantissa : p.mantissa < 2 ^ 53
  exponent : -1074 ≤ p.exponent
  leading : p.mantissa < 2 ^ 52 → p.exponent = -1074

def pattern (p : Parts) : Nat := p.mantissa + (p.exponent + 1074).toNat * 2 ^ 52

end Parts

theorem canonical_of_parts? {x : Float} {p : Parts} (h : parts? x = some p) :
    p.Canonical ∧ magnitude x = p.pattern ∧ p.negative = isNegative x ∧ p.exponent ≤ 971 := by
  have hfield : magnitude x / 2 ^ 52 < 2048 := by
    rw [magnitude]
    omega
  have hfraction : magnitude x % 2 ^ 52 < 2 ^ 52 := Nat.mod_lt _ (by decide)
  have hsplit := Nat.div_add_mod (magnitude x) (2 ^ 52)
  rw [parts?] at h
  generalize magnitude x / 2 ^ 52 = field at *
  generalize magnitude x % 2 ^ 52 = fraction at *
  split at h
  · cases h
  · split at h
    · rename_i hzero
      obtain rfl := Option.some.inj h
      refine ⟨⟨by simp only; omega, le_refl _, fun _ => rfl⟩, ?_, rfl, by simp⟩
      simp only [Parts.pattern]
      omega
    · rename_i hinfinite hzero
      obtain rfl := Option.some.inj h
      refine ⟨⟨by simp only; omega, by simp only; omega, ?_⟩, ?_, rfl, ?_⟩
      · simp only
        omega
      · simp only [Parts.pattern]
        omega
      · simp only
        omega

theorem Parts.Canonical.pattern_lt {p : Parts} (hp : p.Canonical) (h : p.exponent ≤ 971) :
    p.pattern < infinityPattern := by
  have hmantissa := hp.mantissa
  have hexponent := hp.exponent
  rw [Parts.pattern, infinityPattern]
  omega

theorem ofMagnitude_of_parts? {x : Float} {p : Parts} (h : parts? x = some p) :
    ofMagnitude p.negative (magnitude x) = x := by
  obtain ⟨hcanonical, hmagnitude, hsign, hexponent⟩ := canonical_of_parts? h
  have hfinite := hcanonical.pattern_lt hexponent
  have hbits : (ofMagnitude p.negative (magnitude x)).toBits = x.toBits := by
    refine UInt64.toNat_inj.mp ?_
    have hlt := x.toBits.toNat_lt
    rw [toNat_toBits_ofMagnitude, Nat.min_eq_left (by omega), hsign]
    simp only [isNegative, beq_iff_eq, magnitude]
    split <;> omega
  obtain ⟨⟨bits, hvalid⟩⟩ := x
  generalize hy : ofMagnitude p.negative (magnitude _) = y at *
  obtain ⟨⟨other, hother⟩⟩ := y
  obtain rfl : other = bits := hbits
  rfl

theorem isFinite_ofMagnitude (negative : Bool) {pattern : Nat} (h : pattern < infinityPattern) :
    isFinite (ofMagnitude negative pattern) = true := by
  have hfield : pattern / 2 ^ 52 ≠ 2047 := by
    rw [infinityPattern] at h
    omega
  rw [isFinite, parts?, magnitude_ofMagnitude, Nat.min_eq_left h.le]
  simp only [if_neg hfield]
  split <;> rfl

section Exact
variable {p : Parts} {num den : Nat}

/-- The last place kept of the value of a finite number is the place of its mantissa. -/
theorem lastPlace_eq_of_size (hp : p.Canonical) (hnum : 0 < num) (hden : 0 < den)
    (h : (num / den : ℚ) = p.size) : lastPlace num den = p.exponent := by
  have hexponent := hp.exponent
  have hhigh (digits : Nat) (hlt : p.mantissa < 2 ^ digits) :
      leadingExponent num den < digits + p.exponent := by
    refine leadingExponent_lt hnum hden ?_
    rw [h, Parts.size, zpow_add₀ two_ne_zero, zpow_natCast]
    have hcast : (p.mantissa : ℚ) < 2 ^ digits := by exact_mod_cast hlt
    gcongr
  rw [lastPlace]
  by_cases hleading : p.mantissa < 2 ^ 52
  · have hlow := hp.leading hleading
    have hlt := hhigh 52 hleading
    omega
  · have hlt := hhigh 53 hp.mantissa
    have hle : (52 : Nat) + p.exponent ≤ leadingExponent num den := by
      refine le_leadingExponent hnum hden ?_
      rw [h, Parts.size, zpow_add₀ two_ne_zero, zpow_natCast]
      have hcast : (2 : ℚ) ^ 52 ≤ p.mantissa := by exact_mod_cast not_lt.mp hleading
      gcongr
    omega

theorem nearestMagnitude_eq_pattern (hp : p.Canonical) (hnum : 0 < num) (hden : 0 < den)
    (h : (num / den : ℚ) = p.size) : nearestMagnitude num den = p.pattern := by
  have hplace := lastPlace_eq_of_size hp hnum hden h
  have hpow : (2 : ℚ) ^ p.exponent ≠ 0 := by positivity
  have hround : roundHalfEven (scaled num den p.exponent).1 (scaled num den p.exponent).2 =
      p.mantissa := by
    refine roundHalfEven_exact (scaled_den_pos num hden _) ?_
    rw [scaled_ratio, h, Parts.size, mul_div_cancel_right₀ _ hpow]
  rw [nearestMagnitude, if_neg (by omega)]
  simp only [hplace, hround, Parts.pattern]

/-- Two places below the lowest one of a finite number, and further down, its value is an even
number. -/
theorem exists_even_scaled (hp : p.Canonical) {place : Int} (hplace : place ≤ -1076)
    (hnum : 0 < num) (hden : 0 < den) (h : (num / den : ℚ) = p.size) :
    ∃ n, 0 < n ∧ (scaled num den place).1 / (scaled num den place).2 = 2 * n ∧
      ((2 * n : Nat) : ℚ) = p.size / 2 ^ place := by
  have hexponent := hp.exponent
  have hsize : 0 < p.size := by
    rw [← h]
    positivity
  have hmantissa : 0 < p.mantissa := by
    refine Nat.pos_of_ne_zero fun hzero => hsize.ne' ?_
    rw [Parts.size, hzero, Nat.cast_zero, zero_mul]
  have hvalue : ((2 * (p.mantissa * 2 ^ (p.exponent - place - 1).toNat) : Nat) : ℚ) =
      p.size / 2 ^ place := by
    have hshift : (2 : ℚ) ^ (p.exponent - place - 1).toNat = 2 ^ (p.exponent - place - 1) := by
      rw [← zpow_natCast, Int.toNat_of_nonneg (by omega)]
    rw [Nat.cast_mul, Nat.cast_mul, Nat.cast_pow, Nat.cast_two, hshift, Parts.size,
      mul_div_assoc, ← zpow_sub₀ two_ne_zero, mul_left_comm,
      ← zpow_one_add₀ two_ne_zero]
    congr 2
    omega
  refine ⟨_, Nat.mul_pos hmantissa (Nat.two_pow_pos _), ?_, hvalue⟩
  have hpos := scaled_den_pos num hden place
  have hratio := scaled_ratio num den place
  rw [h, ← hvalue, div_eq_iff (by exact_mod_cast hpos.ne')] at hratio
  refine Nat.div_eq_of_eq_mul_left hpos ?_
  exact_mod_cast hratio

/-- Dropping a lone digit leaves the value of a finite number as it is. -/
theorem dropLoneDigit_ratio (hp : p.Canonical) (lowest : Int) (hnum : 0 < num) (hden : 0 < den)
    (h : (num / den : ℚ) = p.size) :
    0 < (dropLoneDigit lowest num den).1 ∧ 0 < (dropLoneDigit lowest num den).2 ∧
      ((dropLoneDigit lowest num den).1 / (dropLoneDigit lowest num den).2 : ℚ) = p.size := by
  rw [dropLoneDigit]
  split
  · rename_i hdrop
    generalize hplace : leadingExponent num den - 53 = place at hdrop ⊢
    have hlow : place ≤ -1076 := by omega
    obtain ⟨n, hn, hdigits, hvalue⟩ := exists_even_scaled hp hlow hnum hden h
    have hratio := scaled_ratio (2 * n) 1 (-place)
    have heven : 2 * n / 2 * 2 = 2 * n := by omega
    rw [hvalue, Nat.cast_one, div_one, zpow_neg, div_inv_eq_mul,
      div_mul_cancel₀ _ (zpow_ne_zero place two_ne_zero)] at hratio
    rw [hdigits, heven]
    refine ⟨?_, scaled_den_pos _ one_pos _, hratio⟩
    rw [scaled, if_pos (by omega)]
    exact Nat.mul_pos two_pos hn
  · exact ⟨hnum, hden, h⟩

theorem readMagnitude_eq_pattern (hp : p.Canonical) (lowest : Int) (hnum : 0 < num)
    (hden : 0 < den) (h : (num / den : ℚ) = p.size) :
    readMagnitude lowest num den = p.pattern := by
  obtain ⟨hnum', hden', h'⟩ := dropLoneDigit_ratio hp lowest hnum hden h
  exact nearestMagnitude_eq_pattern hp hnum' hden' h'

end Exact
end Underwriting.Binary64
