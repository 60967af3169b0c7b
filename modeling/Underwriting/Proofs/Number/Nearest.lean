import Underwriting.Proofs.Number.Rounding

/-! # The nearest number

A quotient is rounded to the number that lies nearest to it, of two such numbers to the one with
the even mantissa, and there is only one like that. The lone digit that is overlooked below the
normal range is worth so little that the quotient without it is rounded to the same number, as
long as nothing else is lost.
-/
namespace Underwriting.Binary64

/-! ## Rounding to a whole number -/

/-- What is rounded away is half of a unit at most, and exactly that only if an even number is
left. -/
theorem roundHalfEven_spec (num : Nat) {den : Nat} (hden : 0 < den) :
    |(roundHalfEven num den : ℚ) - num / den| ≤ 1 / 2 ∧
      (|(roundHalfEven num den : ℚ) - num / den| = 1 / 2 → Even (roundHalfEven num den)) := by
  have hdenPos : (0 : ℚ) < den := by exact_mod_cast hden
  have hsplit : (num : ℚ) / den = (num / den : Nat) + (num % den : Nat) / (den : ℚ) := by
    rw [div_eq_iff hdenPos.ne', add_mul, div_mul_cancel₀ _ hdenPos.ne']
    exact_mod_cast (Nat.div_add_mod' num den).symm
  have hone : ((num % den : Nat) / den : ℚ) < 1 := by
    rw [div_lt_one hdenPos]
    exact_mod_cast Nat.mod_lt num hden
  rw [hsplit, roundHalfEven]
  generalize num / den = floor
  generalize num % den = rest at hone ⊢
  have hrest : (0 : ℚ) ≤ rest / den := by positivity
  have hhalf : (rest / den : ℚ) < 1 / 2 ↔ 2 * rest < den := by
    rw [div_lt_div_iff₀ hdenPos two_pos, one_mul, mul_comm]
    exact_mod_cast Iff.rfl
  have hmore : (1 / 2 : ℚ) < rest / den ↔ den < 2 * rest := by
    rw [div_lt_div_iff₀ two_pos hdenPos, one_mul, mul_comm (rest : ℚ)]
    exact_mod_cast Iff.rfl
  split
  · rename_i hdown
    rw [sub_add_cancel_left, abs_neg, abs_of_nonneg hrest]
    exact ⟨(hhalf.mpr hdown).le, fun htie => absurd htie (hhalf.mpr hdown).ne⟩
  · rename_i hnot
    split
    · rename_i hup
      have hlow := hmore.mpr hup
      have hdistance : ((floor + 1 : Nat) : ℚ) - (floor + rest / den) = 1 - rest / den := by
        push_cast
        ring
      rw [hdistance, abs_of_pos (by linarith)]
      exact ⟨by linarith, fun htie => absurd htie (by linarith)⟩
    · rename_i hnotUp
      have htie : (rest / den : ℚ) = 1 / 2 :=
        le_antisymm (not_lt.mp (mt hmore.mp hnotUp)) (not_lt.mp (mt hhalf.mp hnot))
      refine ⟨?_, fun _ => Nat.even_iff.mpr (by omega)⟩
      rw [htie]
      rcases Nat.mod_two_eq_zero_or_one floor with hparity | hparity
      all_goals
        rw [hparity]
        push_cast
        norm_num

theorem half_le_of_ne {m k : Nat} {r : ℚ} (hhalf : |(m : ℚ) - r| ≤ 1 / 2) (hk : k ≠ m) :
    1 / 2 ≤ |(k : ℚ) - r| := by
  have hapart : (1 : ℚ) ≤ |(k : ℚ) - m| := by
    have hint : (1 : Int) ≤ |(k : Int) - m| :=
      Int.one_le_abs (sub_ne_zero.mpr (by exact_mod_cast hk))
    exact_mod_cast hint
  have htriangle := abs_sub_le (k : ℚ) r m
  rw [abs_sub_comm r] at htriangle
  linarith

/-! ## Finite numbers and their distances -/

/-- Whether a number of any size lies nearest to a quotient, and has the even mantissa if it shares
that place with another one. -/
def Parts.IsNearest (p : Parts) (q : ℚ) : Prop :=
  ∀ other : Parts, other.Canonical →
    |p.size - q| < |other.size - q| ∨
      |p.size - q| = |other.size - q| ∧ (other.size = p.size ∨ Even p.mantissa)

/-- A mantissa in its place, or the one that a carry makes of it. -/
theorem exists_canonical {m : Nat} {place : Int} (hm : m ≤ 2 ^ 53) (hplace : -1074 ≤ place)
    (hleading : m < 2 ^ 52 → place = -1074) :
    ∃ p : Parts, p.Canonical ∧ p.size = m * 2 ^ place ∧
      p.pattern = m + (place + 1074).toNat * 2 ^ 52 ∧ (Even m → Even p.mantissa) := by
  rcases hm.lt_or_eq with hlt | rfl
  · exact ⟨⟨false, m, place⟩, ⟨hlt, hplace, hleading⟩, rfl, rfl, id⟩
  · refine ⟨⟨false, 2 ^ 52, place + 1⟩, ⟨by simp, by simp only; omega, by simp⟩, ?_, ?_, ?_⟩
    · rw [Parts.size, zpow_add₀ two_ne_zero]
      push_cast
      ring
    · rw [Parts.pattern]
      simp only
      omega
    · intro _
      exact Nat.even_pow.mpr ⟨even_two, by decide⟩

section Distance
variable {p other : Parts} {q : ℚ} {place : Int}

theorem Parts.exists_units (h : place ≤ p.exponent) :
    p.size = ((p.mantissa * 2 ^ (p.exponent - place).toNat : Nat) : ℚ) * 2 ^ place := by
  have hpower : (2 : ℚ) ^ (p.exponent - place).toNat = 2 ^ (p.exponent - place) := by
    rw [← zpow_natCast, Int.toNat_of_nonneg (by omega)]
  rw [Parts.size]
  push_cast
  rw [hpower, mul_assoc, ← zpow_add₀ two_ne_zero, sub_add_cancel]

/-- Below a place there is no number with a digit more than 52 places above it. -/
theorem Parts.Canonical.size_lt (h : p.Canonical) (hplace : p.exponent < place) :
    p.size < 2 ^ 52 * 2 ^ place := by
  have hmantissa : (p.mantissa : ℚ) < 2 ^ 53 := by exact_mod_cast h.mantissa
  have hexponent : p.exponent ≤ place - 1 := by omega
  calc p.size < 2 ^ 53 * 2 ^ p.exponent := by
        rw [Parts.size]
        gcongr
    _ ≤ 2 ^ 53 * 2 ^ (place - 1) := by
        gcongr
        norm_num
    _ = 2 ^ 52 * 2 ^ place := by
        rw [zpow_sub_one₀ two_ne_zero]
        ring

theorem Parts.Canonical.size_lt_of_exponent_lt (hp : p.Canonical) (hother : other.Canonical)
    (h : other.exponent < p.exponent) : other.size < p.size := by
  have hlowest := hother.exponent
  have hmantissa : 2 ^ 52 ≤ p.mantissa := by
    by_contra hless
    have hexponent := hp.leading (not_le.mp hless)
    omega
  have hcast : (2 : ℚ) ^ 52 ≤ p.mantissa := by exact_mod_cast hmantissa
  calc other.size < 2 ^ 52 * 2 ^ p.exponent := hother.size_lt h
    _ ≤ p.mantissa * 2 ^ p.exponent := by gcongr
    _ = p.size := rfl

theorem distance_units {m : ℚ} (r : ℚ) (hsize : p.size = m * 2 ^ place) :
    |p.size - r * 2 ^ place| = |m - r| * 2 ^ place := by
  have hunit : (0 : ℚ) < 2 ^ place := by positivity
  rw [hsize, ← sub_mul, abs_mul, abs_of_pos hunit]

/-- A quotient rounded to a whole multiple of its last place is rounded to the nearest number. -/
theorem isNearest_of_units {m : Nat} {r : ℚ} (hsize : p.size = m * 2 ^ place)
    (hhalf : |(m : ℚ) - r| ≤ 1 / 2) (htie : |(m : ℚ) - r| = 1 / 2 → Even p.mantissa)
    (hlow : place ≠ -1074 → (2 : ℚ) ^ 52 ≤ r) :
    p.IsNearest (r * 2 ^ place) := by
  intro other hother
  have hunit : (0 : ℚ) < 2 ^ place := by positivity
  rw [distance_units r hsize]
  by_cases hplace : place ≤ other.exponent
  · have hunits := Parts.exists_units hplace
    generalize other.mantissa * 2 ^ (other.exponent - place).toNat = k at hunits
    rw [distance_units r hunits]
    by_cases hk : k = m
    · rw [hk] at hunits ⊢
      exact Or.inr ⟨rfl, Or.inl (hunits.trans hsize.symm)⟩
    · rcases (hhalf.trans (half_le_of_ne hhalf hk)).lt_or_eq with hless | hsame
      · exact Or.inl (mul_lt_mul_of_pos_right hless hunit)
      · have hequal : |(m : ℚ) - r| = 1 / 2 :=
          le_antisymm hhalf (hsame ▸ half_le_of_ne hhalf hk)
        exact Or.inr ⟨by rw [hsame], Or.inr (htie hequal)⟩
  · -- a number with a lower last place lies below the leading digit of the quotient
    have hlowest := hother.exponent
    have hleading := hlow (by omega)
    have hless := hother.size_lt (not_le.mp hplace)
    have hbound : |(m : ℚ) - r| ≤ r - 2 ^ 52 := by
      have hfirst : |((2 ^ 52 : Nat) : ℚ) - r| = r - 2 ^ 52 := by
        rw [abs_sub_comm, abs_of_nonneg (by push_cast; linarith)]
        push_cast
        rfl
      rw [← hfirst]
      by_cases hm : 2 ^ 52 = m
      · rw [hm]
      · exact hhalf.trans (half_le_of_ne hhalf hm)
    refine Or.inl ?_
    calc |(m : ℚ) - r| * 2 ^ place ≤ (r - 2 ^ 52) * 2 ^ place := by gcongr
      _ < r * 2 ^ place - other.size := by linarith
      _ ≤ |other.size - r * 2 ^ place| := by
        rw [abs_sub_comm]
        exact le_abs_self _

/-- Less than half of the lowest place away there is no other number. -/
theorem Parts.Canonical.isNearest_of_close (hp : p.Canonical)
    (h : |p.size - q| < 2 ^ (-1075 : Int)) : p.IsNearest q := by
  have hunits := Parts.exists_units hp.exponent
  have hq : q = q / 2 ^ (-1074 : Int) * 2 ^ (-1074 : Int) := by
    rw [div_mul_cancel₀ _ (by positivity)]
  have hhalf : (2 : ℚ) ^ (-1075 : Int) = 1 / 2 * 2 ^ (-1074 : Int) := by
    rw [show (-1075 : Int) = -1074 - 1 from rfl, zpow_sub_one₀ two_ne_zero]
    ring
  rw [hq] at h ⊢
  rw [distance_units _ hunits, hhalf] at h
  have hless := lt_of_mul_lt_mul_right h (by positivity)
  exact isNearest_of_units hunits hless.le (fun htie => absurd htie hless.ne)
    fun hplace => absurd rfl hplace

/-- Of two numbers nearest to one quotient neither is the larger: between the smaller one and the
next number after it there is no room, and one of these two has an odd mantissa. -/
theorem Parts.IsNearest.size_le (h : p.IsNearest q) (h' : other.IsNearest q)
    (hp : p.Canonical) (hother : other.Canonical) : other.size ≤ p.size := by
  by_contra hlarger
  rw [not_le] at hlarger
  obtain ⟨hsame, heven⟩ : |p.size - q| = |other.size - q| ∧ Even p.mantissa := by
    rcases h other hother with hless | ⟨hsame, hsize | heven⟩
    · rcases h' p hp with hmore | ⟨hsame, -⟩
      · exact absurd hless hmore.not_gt
      · exact absurd hsame hless.ne'
    · exact absurd hsize hlarger.ne'
    · exact ⟨hsame, heven⟩
  have hevenOther : Even other.mantissa := by
    rcases h' p hp with hmore | ⟨-, hsize | hevenOther⟩
    · exact absurd hsame.symm hmore.ne
    · exact absurd hsize hlarger.ne
    · exact hevenOther
  have hmiddle : p.size - q = -(other.size - q) := by
    rcases abs_eq_abs.mp hsame with hequal | hopposite
    · exact absurd (sub_left_inj.mp hequal) hlarger.ne
    · exact hopposite
  have hunit : (0 : ℚ) < 2 ^ p.exponent := by positivity
  obtain ⟨next, hnext, hnextSize, -, -⟩ := exists_canonical (m := p.mantissa + 1)
    hp.mantissa hp.exponent fun hless => hp.leading (by omega)
  have hsize : p.size = p.mantissa * 2 ^ p.exponent := rfl
  have hstep : p.size < next.size := by
    rw [hsize, hnextSize]
    push_cast
    linarith
  have hclose : other.size ≤ next.size := by
    by_contra hmore
    rw [not_le] at hmore
    have hnearer : |next.size - q| < |p.size - q| := by
      rw [abs_of_neg (by linarith : p.size - q < 0), abs_lt]
      constructor <;> linarith
    rcases h next hnext with hless | ⟨hequal, -⟩
    · exact absurd hless hnearer.not_gt
    · exact absurd hequal hnearer.ne'
  by_cases hplace : p.exponent ≤ other.exponent
  · have hunits := Parts.exists_units hplace
    have hevenUnits : Even (other.mantissa * 2 ^ (other.exponent - p.exponent).toNat) :=
      hevenOther.mul_right _
    generalize other.mantissa * 2 ^ (other.exponent - p.exponent).toNat = k at *
    rw [hunits] at hclose hlarger
    rw [hnextSize] at hclose
    have hlow : p.mantissa < k := by
      exact_mod_cast lt_of_mul_lt_mul_right (hsize ▸ hlarger) hunit.le
    have hhigh : k ≤ p.mantissa + 1 := by
      exact_mod_cast le_of_mul_le_mul_right hclose hunit
    obtain rfl : k = p.mantissa + 1 := by omega
    exact Nat.even_add_one.mp hevenUnits heven
  · exact hlarger.not_gt (hp.size_lt_of_exponent_lt hother (not_le.mp hplace))

/-- The size of a number determines its parts, the sign apart. -/
theorem Parts.Canonical.eq_of_size_eq (hp : p.Canonical) (hother : other.Canonical)
    (h : p.size = other.size) : p.mantissa = other.mantissa ∧ p.exponent = other.exponent := by
  have hexponent : p.exponent = other.exponent := by
    refine le_antisymm (not_lt.mp fun hlt => ?_) (not_lt.mp fun hlt => ?_)
    · exact (hp.size_lt_of_exponent_lt hother hlt).ne' h
    · exact (hother.size_lt_of_exponent_lt hp hlt).ne h
  refine ⟨?_, hexponent⟩
  rw [Parts.size, Parts.size, hexponent] at h
  have hunit : (2 : ℚ) ^ other.exponent ≠ 0 := by positivity
  exact_mod_cast mul_right_cancel₀ hunit h

end Distance

section Quotient
variable {num den : Nat}

/-- In units of its last place a quotient has 53 digits before the point, or fewer if that place
is the lowest one. -/
theorem lastPlace_bounds (hnum : 0 < num) (hden : 0 < den) :
    -1074 ≤ lastPlace num den ∧ (num / den / 2 ^ lastPlace num den : ℚ) < 2 ^ 53 ∧
      (lastPlace num den ≠ -1074 → (2 : ℚ) ^ 52 ≤ num / den / 2 ^ lastPlace num den) := by
  obtain ⟨hlow, hhigh⟩ := leadingExponent_bounds hnum hden
  have hpos : (0 : ℚ) < 2 ^ lastPlace num den := by positivity
  refine ⟨le_max_right _ _, ?_, fun hplace => ?_⟩
  · have hexponent : leadingExponent num den + 1 ≤ (53 : Nat) + lastPlace num den := by
      rw [lastPlace]
      omega
    rw [div_lt_iff₀ hpos, ← zpow_natCast, ← zpow_add₀ two_ne_zero]
    exact hhigh.trans_le (zpow_le_zpow_right₀ one_le_two hexponent)
  · have hexponent : (52 : Nat) + lastPlace num den = leadingExponent num den := by
      rw [lastPlace] at hplace ⊢
      omega
    rw [le_div_iff₀ hpos, ← zpow_natCast, ← zpow_add₀ two_ne_zero, hexponent]
    exact hlow

theorem exists_isNearest (hnum : 0 < num) (hden : 0 < den) :
    ∃ p : Parts, p.Canonical ∧ p.pattern = nearestMagnitude num den ∧
      p.IsNearest (num / den) := by
  obtain ⟨hplace, hhigh, hlow⟩ := lastPlace_bounds hnum hden
  have hspec := roundHalfEven_spec (scaled num den (lastPlace num den)).1
    (scaled_den_pos num hden (lastPlace num den))
  rw [scaled_ratio] at hspec
  have hpattern : nearestMagnitude num den =
      roundHalfEven (scaled num den (lastPlace num den)).1 (scaled num den (lastPlace num den)).2 +
        (lastPlace num den + 1074).toNat * 2 ^ 52 := by
    rw [nearestMagnitude, if_neg hnum.ne']
  rw [hpattern]
  generalize roundHalfEven (scaled num den (lastPlace num den)).1
    (scaled num den (lastPlace num den)).2 = m at *
  generalize lastPlace num den = place at *
  have hunit : (0 : ℚ) < 2 ^ place := by positivity
  obtain ⟨r, hr⟩ : ∃ r : ℚ, r = num / den / 2 ^ place := ⟨_, rfl⟩
  have hq : (num / den : ℚ) = r * 2 ^ place := by
    rw [hr, div_mul_cancel₀ _ hunit.ne']
  rw [← hr] at hspec hhigh hlow
  obtain ⟨hhalf, htie⟩ := hspec
  obtain ⟨hbelow, habove⟩ := abs_le.mp hhalf
  have hcarry : m ≤ 2 ^ 53 := by
    have hcast : (m : ℚ) < 2 ^ 53 + 1 := by linarith
    exact Nat.lt_succ_iff.mp (by exact_mod_cast hcast)
  have hleading : m < 2 ^ 52 → place = -1074 := by
    intro hless
    by_contra hnormal
    have hcast : (m : ℚ) + 1 ≤ 2 ^ 52 := by exact_mod_cast hless
    linarith [hlow hnormal]
  obtain ⟨p, hcanonical, hsize, hpattern, heven⟩ := exists_canonical hcarry hplace hleading
  rw [hq]
  exact ⟨p, hcanonical, hpattern, isNearest_of_units hsize hhalf (fun h => heven (htie h)) hlow⟩

theorem exists_size_of_isExact (hnum : 0 < num) (hden : 0 < den) (h : isExact num den = true) :
    ∃ p : Parts, p.Canonical ∧ p.size = num / den := by
  obtain ⟨hplace, hhigh, hlow⟩ := lastPlace_bounds hnum hden
  have hratio := scaled_ratio num den (lastPlace num den)
  have hdivides : (scaled num den (lastPlace num den)).1 %
      (scaled num den (lastPlace num den)).2 = 0 := by
    simpa [isExact, hnum.ne'] using h
  obtain ⟨k, hk⟩ := Nat.dvd_of_mod_eq_zero hdivides
  have hpos : ((scaled num den (lastPlace num den)).2 : ℚ) ≠ 0 := by
    exact_mod_cast (scaled_den_pos num hden _).ne'
  rw [hk, Nat.cast_mul, mul_div_cancel_left₀ _ hpos] at hratio
  rw [← hratio] at hhigh hlow
  refine ⟨⟨false, k, lastPlace num den⟩, ⟨by exact_mod_cast hhigh, hplace, fun hless => ?_⟩, ?_⟩
  · by_contra hnormal
    have hle : 2 ^ 52 ≤ k := by exact_mod_cast hlow hnormal
    exact absurd hless (not_lt.mpr hle)
  · rw [Parts.size, hratio, div_mul_cancel₀ _ (by positivity)]

theorem isExact_of_size {p : Parts} (hp : p.Canonical) (hnum : 0 < num) (hden : 0 < den)
    (h : (num / den : ℚ) = p.size) : isExact num den = true := by
  have hratio := scaled_ratio num den p.exponent
  have hpos := scaled_den_pos num hden p.exponent
  rw [h, Parts.size, mul_div_cancel_right₀ _ (by positivity),
    div_eq_iff (by exact_mod_cast hpos.ne')] at hratio
  have hmultiple : (scaled num den p.exponent).1 =
      p.mantissa * (scaled num den p.exponent).2 := by exact_mod_cast hratio
  simp only [isExact, lastPlace_eq_of_size hp hnum hden h, hmultiple, Nat.mul_mod_left,
    beq_self_eq_true, Bool.or_true]

/-- What lies no more than halfway from the largest finite number to the next one has a finite
number nearest to it. -/
theorem Parts.Canonical.pattern_lt_of_isNearest {p : Parts} {q : ℚ} (hp : p.Canonical)
    (hnearest : p.IsNearest q) (h : q < 2 ^ 1024 - 2 ^ 970) : p.pattern < infinityPattern := by
  by_contra hinfinite
  rw [Parts.pattern, infinityPattern] at hinfinite
  have hmantissa := hp.mantissa
  have hexponent : 972 ≤ p.exponent := by omega
  have hleading : 2 ^ 52 ≤ p.mantissa := by
    by_contra hless
    have hlowest := hp.leading (not_le.mp hless)
    omega
  have hsize : (2 : ℚ) ^ 1024 ≤ p.size := by
    have hcast : (2 : ℚ) ^ 52 ≤ p.mantissa := by exact_mod_cast hleading
    calc (2 : ℚ) ^ 1024 = 2 ^ 52 * 2 ^ (972 : Int) := by
          rw [zpow_ofNat, ← pow_add]
      _ ≤ (p.mantissa : ℚ) * 2 ^ p.exponent := by
          gcongr
          exact one_le_two
  have hlargest : (⟨false, 2 ^ 53 - 1, 971⟩ : Parts).Canonical :=
    ⟨by decide, by decide, by decide⟩
  have hlargestSize : (⟨false, 2 ^ 53 - 1, 971⟩ : Parts).size = 2 ^ 1024 - 2 ^ 971 := by
    have hcast : ((2 ^ 53 - 1 : Nat) : ℚ) = 2 ^ 53 - 1 := by norm_num
    rw [Parts.size, hcast, zpow_ofNat, sub_mul, one_mul, ← pow_add]
  -- the largest finite number would be nearer
  have hnearer : |(⟨false, 2 ^ 53 - 1, 971⟩ : Parts).size - q| < |p.size - q| := by
    have hhalf : (2 : ℚ) ^ 971 = 2 * 2 ^ 970 := pow_succ' 2 970
    have hunit : (0 : ℚ) < 2 ^ 970 := by positivity
    rw [hlargestSize, hhalf]
    clear hlargestSize hhalf hnearest
    generalize (2 : ℚ) ^ 970 = unit at *
    generalize (2 : ℚ) ^ 1024 = limit at *
    have hbelow : 0 < p.size - q := by linarith only [hsize, h, hunit]
    rw [abs_of_pos hbelow, abs_lt]
    constructor <;> linarith only [hsize, h, hunit]
  rcases hnearest _ hlargest with hless | ⟨hequal, -⟩
  · exact absurd hless hnearer.not_gt
  · exact absurd hequal hnearer.ne'

/-! ## A lone digit -/

/-- A quotient with no digit after the 54th is a whole number of units of that digit. -/
theorem lone_digit {place : Int} (hnum : 0 < num) (hden : 0 < den)
    (hplace : leadingExponent num den - 53 = place)
    (hdivides : (scaled num den place).1 % (scaled num den place).2 = 0) :
    ∃ n : Nat, (scaled num den place).1 / (scaled num den place).2 = n ∧
      (num / den : ℚ) = n * 2 ^ place ∧ 2 ^ 53 ≤ n ∧ n < 2 ^ 54 := by
  obtain ⟨hlow, hhigh⟩ := leadingExponent_bounds hnum hden
  have hleading : leadingExponent num den = (53 : Nat) + place := by omega
  have hunit : (0 : ℚ) < 2 ^ place := by positivity
  have hratio := scaled_ratio num den place
  have hpos : ((scaled num den place).2 : ℚ) ≠ 0 := by
    exact_mod_cast (scaled_den_pos num hden place).ne'
  rw [← Nat.cast_div_charZero (Nat.dvd_of_mod_eq_zero hdivides)] at hratio
  generalize (scaled num den place).1 / (scaled num den place).2 = n at hratio ⊢
  rw [eq_div_iff hunit.ne'] at hratio
  rw [hleading, ← hratio] at hlow hhigh
  rw [zpow_add₀ two_ne_zero, zpow_natCast] at hlow
  rw [add_right_comm, ← Nat.cast_succ, zpow_add₀ two_ne_zero, zpow_natCast] at hhigh
  refine ⟨n, rfl, hratio.symm, ?_, ?_⟩
  · exact_mod_cast le_of_mul_le_mul_right hlow hunit
  · exact_mod_cast lt_of_mul_lt_mul_right hhigh hunit.le

theorem belowNormal_iff (hden : 0 < den) :
    num * 2 ^ 1076 < (2 ^ 54 - 1) * den ↔
      (num / den : ℚ) < (2 ^ 54 - 1) * 2 ^ (-1076 : Int) := by
  have hdenPos : (0 : ℚ) < den := by exact_mod_cast hden
  have hfactor : (2 ^ 54 - 1 : ℚ) = ((2 ^ 54 - 1 : Nat) : ℚ) := by norm_num
  have hpower : (2 : ℚ) ^ 1076 = ((2 ^ 1076 : Nat) : ℚ) := by
    rw [Nat.cast_pow, Nat.cast_two]
  rw [zpow_neg, zpow_ofNat, ← div_eq_mul_inv, div_lt_div_iff₀ hdenPos (by positivity), hfactor,
    hpower, ← Nat.cast_mul, ← Nat.cast_mul, Nat.cast_lt]

theorem Parts.Canonical.isNearest_of_neighbour {p : Parts} (hp : p.Canonical) {m n : Nat}
    {place : Int} (hplace : place < -1075) (hsize : p.size = m * 2 ^ place)
    (hlow : m ≤ n + 1) (hhigh : n ≤ m + 1) : p.IsNearest (n * 2 ^ place) := by
  refine hp.isNearest_of_close ?_
  have hlost : |(m : ℚ) - n| ≤ 1 := by
    have hint : |(m : Int) - n| ≤ 1 := by
      rw [abs_le]
      omega
    exact_mod_cast hint
  rw [distance_units _ hsize]
  calc |(m : ℚ) - n| * 2 ^ place ≤ 1 * 2 ^ place := by gcongr
    _ < 2 ^ (-1075 : Int) := by
      rw [one_mul]
      exact zpow_lt_zpow_right₀ one_lt_two hplace

/-- Only one quotient with a lone digit is not below the normal range when it is rounded. -/
theorem lone_digit_of_normal {n : Nat} {place : Int} (hplace : place < -1075) (hn : n < 2 ^ 54)
    (h : (2 ^ 54 - 1 : ℚ) * 2 ^ (-1076 : Int) ≤ n * 2 ^ place) :
    place = -1076 ∧ n = 2 ^ 54 - 1 := by
  have hcast : (n : ℚ) < 2 ^ 54 := by exact_mod_cast hn
  obtain rfl : place = -1076 := by
    refine le_antisymm (by omega) (not_lt.mp fun hlower => ?_)
    have hunits : (n : ℚ) * 2 ^ place < (2 ^ 54 - 1) * 2 ^ (-1076 : Int) := by
      calc (n : ℚ) * 2 ^ place ≤ 2 ^ 54 * 2 ^ (-1077 : Int) := by
            gcongr
            · exact one_le_two
            · omega
        _ = 2 ^ 53 * 2 ^ (-1076 : Int) := by
            rw [show (-1077 : Int) = -1076 - 1 from rfl, zpow_sub_one₀ two_ne_zero]
            ring
        _ < (2 ^ 54 - 1) * 2 ^ (-1076 : Int) := by
            gcongr
            norm_num
    exact hunits.not_ge h
  refine ⟨rfl, ?_⟩
  have hunits : (2 ^ 54 - 1 : ℚ) ≤ n := le_of_mul_le_mul_right h (by positivity)
  have hle : 2 ^ 54 ≤ n + 1 := by exact_mod_cast sub_le_iff_le_add.mp hunits
  omega

theorem nearestMagnitude_below_normal :
    nearestMagnitude (2 ^ 54 - 2) (2 ^ 1076) = 2 ^ 52 := by
  decide +kernel

/-- A quotient is read as the number nearest to it, unless digits that are no lone one get lost
below the normal range. -/
theorem exists_isNearest_of_readMagnitude (lowest : Int) (hnum : 0 < num) (hden : 0 < den)
    (h : num * 2 ^ 1076 < (2 ^ 54 - 1) * den →
      isExact (dropLoneDigit lowest num den).1 (dropLoneDigit lowest num den).2 = true) :
    ∃ p : Parts, p.Canonical ∧ p.pattern = readMagnitude lowest num den ∧
      p.IsNearest (num / den) := by
  rw [readMagnitude]
  rw [dropLoneDigit] at h ⊢
  split at h
  · rename_i hdrop
    rw [if_pos hdrop]
    generalize hplace : leadingExponent num den - 53 = place at hdrop h ⊢
    obtain ⟨n, hdigits, hvalue, hlow, hhigh⟩ := lone_digit hnum hden hplace hdrop.2.2
    have hscaled : scaled (n / 2 * 2) 1 (-place) = (n / 2 * 2, 2 ^ (-place).toNat) := by
      rw [scaled, if_pos (by omega), one_mul]
    have hratio := scaled_ratio (n / 2 * 2) 1 (-place)
    rw [Nat.cast_one, div_one, zpow_neg, div_inv_eq_mul] at hratio
    rw [hdigits] at h ⊢
    by_cases hsubnormal : num * 2 ^ 1076 < (2 ^ 54 - 1) * den
    · have hpos : 0 < (scaled (n / 2 * 2) 1 (-place)).1 := by
        rw [hscaled]
        simp only
        omega
      have hposDen := scaled_den_pos (n / 2 * 2) one_pos (-place)
      obtain ⟨p, hp, hsize⟩ := exists_size_of_isExact hpos hposDen (h hsubnormal)
      refine ⟨p, hp, (nearestMagnitude_eq_pattern hp hpos hposDen hsize.symm).symm, ?_⟩
      rw [hvalue]
      exact hp.isNearest_of_neighbour hdrop.2.1 (hsize.trans hratio) (by omega) (by omega)
    · have hnormal := not_lt.mp (mt (belowNormal_iff hden).mpr hsubnormal)
      rw [hvalue] at hnormal ⊢
      obtain ⟨rfl, rfl⟩ := lone_digit_of_normal hdrop.2.1 hhigh hnormal
      have hp : (⟨false, 2 ^ 52, -1074⟩ : Parts).Canonical := ⟨by decide, by decide, by decide⟩
      refine ⟨_, hp, ?_, hp.isNearest_of_neighbour (m := 2 ^ 54) hdrop.2.1 ?_ ?_ ?_⟩
      · rw [hscaled]
        have hshift : (-(-1076 : Int)).toNat = 1076 := rfl
        rw [hshift]
        exact nearestMagnitude_below_normal.symm
      · have hunits : ((2 ^ 52 : Nat) : ℚ) * 2 ^ 2 = (2 ^ 54 : Nat) := by norm_num
        rw [Parts.size, show (-1074 : Int) = (2 : Nat) + -1076 from rfl, zpow_add₀ two_ne_zero,
          zpow_natCast, ← mul_assoc, hunits]
      · decide
      · decide
  · rename_i hkeep
    rw [if_neg hkeep]
    exact exists_isNearest hnum hden

end Quotient
/-! ## The number of a quotient -/

/-- The parts of a finite number are those that its pattern was made from. -/
theorem parts?_ofMagnitude_pattern (negative : Bool) {p : Parts} (hp : p.Canonical)
    (hfinite : p.pattern < infinityPattern) :
    parts? (ofMagnitude negative p.pattern) = some ⟨negative, p.mantissa, p.exponent⟩ := by
  have hmantissa := hp.mantissa
  have hexponent := hp.exponent
  by_cases hleading : p.mantissa < 2 ^ 52
  · have hlowest := hp.leading hleading
    have hpattern : p.pattern = p.mantissa := by
      rw [Parts.pattern]
      omega
    have hmin : min p.mantissa infinityPattern = p.mantissa := by
      rw [← hpattern]
      exact Nat.min_eq_left hfinite.le
    simp only [parts?, magnitude_ofMagnitude, isNegative_ofMagnitude, hpattern, hmin,
      Nat.div_eq_of_lt hleading, Nat.mod_eq_of_lt hleading, hlowest]
    rw [if_neg (by decide), if_pos trivial]
  · have hpattern : p.pattern =
        (p.exponent + 1075).toNat * 2 ^ 52 + (p.mantissa - 2 ^ 52) := by
      rw [Parts.pattern]
      omega
    rw [hpattern, infinityPattern] at hfinite
    rw [hpattern, parts?_ofMagnitude_normal negative _ _ (by omega) (by omega) (by omega)]
    have hfraction : 2 ^ 52 + (p.mantissa - 2 ^ 52) = p.mantissa := by omega
    have hfield : ((p.exponent + 1075).toNat : Int) - 1075 = p.exponent := by omega
    rw [hfraction, hfield]

/-- A finite number of this sign, with the size nearest to a quotient. -/
def Rounds (negative : Bool) (q : ℚ) (x : Float) : Prop :=
  ∃ p, parts? x = some p ∧ p.negative = negative ∧ p.IsNearest q

theorem Rounds.unique {negative : Bool} {q : ℚ} {x y : Float} (hx : Rounds negative q x)
    (hy : Rounds negative q y) : x = y := by
  obtain ⟨p, hparts, hsign, hnearest⟩ := hx
  obtain ⟨p', hparts', hsign', hnearest'⟩ := hy
  obtain ⟨hp, hmagnitude, -, -⟩ := canonical_of_parts? hparts
  obtain ⟨hp', hmagnitude', -, -⟩ := canonical_of_parts? hparts'
  have hsize : p.size = p'.size :=
    le_antisymm (hnearest'.size_le hnearest hp' hp) (hnearest.size_le hnearest' hp hp')
  obtain ⟨hmantissa, hexponent⟩ := hp.eq_of_size_eq hp' hsize
  rw [← ofMagnitude_of_parts? hparts, ← ofMagnitude_of_parts? hparts', hmagnitude, hmagnitude',
    hsign, hsign', Parts.pattern, Parts.pattern, hmantissa, hexponent]

theorem rounds_ofMagnitude (negative : Bool) {q : ℚ} {p : Parts} (hp : p.Canonical)
    (hfinite : p.pattern < infinityPattern) (hnearest : p.IsNearest q) :
    Rounds negative q (ofMagnitude negative p.pattern) :=
  ⟨_, parts?_ofMagnitude_pattern negative hp hfinite, rfl, hnearest⟩

theorem rounds_zero (negative : Bool) : Rounds negative 0 (ofMagnitude negative 0) := by
  have hp : (⟨negative, 0, -1074⟩ : Parts).Canonical := ⟨by simp, by simp, by simp⟩
  have hparts : parts? (ofMagnitude negative 0) = some ⟨negative, 0, -1074⟩ := by
    simp [parts?]
  refine ⟨_, hparts, rfl, hp.isNearest_of_close ?_⟩
  rw [Parts.size, Nat.cast_zero, zero_mul, sub_zero, abs_zero]
  positivity

end Underwriting.Binary64
