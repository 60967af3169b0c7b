import Underwriting.Proofs.Number.Rounding
import Underwriting.Proofs.Text.Parts
import Underwriting.Number.Decimal

/-! # Numerals and what they are read as

The text of a numeral is read as that numeral, in each of its notations. The numeral with
all the digits of a finite number has the value of that number, so whichever numeral is
written for the number, it is read as the number's own magnitude.
-/
namespace Underwriting

/-! ## Digits -/

namespace Integer

theorem readDigits?_eq_some_iff {cs : List Char} {n : Nat} :
    readDigits? cs = some n ↔ (cs ≠ [] ∧ ∀ c ∈ cs, c.isDigit = true) ∧ n = ofDigits cs := by
  rw [readDigits?, Option.ite_none_left_eq_some, Option.some.injEq, @eq_comm Nat n]
  simp only [Bool.or_eq_true, List.isEmpty_iff, Bool.not_eq_true', not_or, Bool.not_eq_false,
    List.all_eq_true, ne_eq]

theorem ofDigits_eq_ofDigitChars (cs : List Char) : ofDigits cs = Nat.ofDigitChars 10 cs 0 := by
  rw [ofDigits, Nat.ofDigitChars_eq_foldl]
  simp only [Nat.mul_comm]

theorem ofDigits_padded (count n : Nat) :
    ofDigits (List.replicate count '0' ++ Nat.toDigits 10 n) = n := by
  have hzeros : List.foldl (fun n c => n * 10 + (c.toNat - '0'.toNat)) 0
      (List.replicate count '0') = 0 := by
    induction count with
    | zero => rfl
    | succ count ih =>
      rw [List.replicate_succ, List.foldl_cons]
      exact ih
  rw [ofDigits, List.foldl_append, hzeros]
  exact (ofDigits_eq_ofDigitChars _).trans Nat.ofDigitChars_ten_toDigits

theorem isDigit_of_mem_padded {count n : Nat} {c : Char}
    (h : c ∈ List.replicate count '0' ++ Nat.toDigits 10 n) : c.isDigit = true := by
  rcases List.mem_append.mp h with hzero | hdigit
  · obtain rfl := List.eq_of_mem_replicate hzero
    rfl
  · exact Nat.isDigit_of_mem_toDigits (by decide) (by decide) hdigit

theorem readDigits?_padded (count n : Nat) :
    readDigits? (List.replicate count '0' ++ Nat.toDigits 10 n) = some n := by
  have hall : (List.replicate count '0' ++ Nat.toDigits 10 n).all Char.isDigit = true :=
    List.all_eq_true.mpr fun c hc => isDigit_of_mem_padded hc
  have hne : (List.replicate count '0' ++ Nat.toDigits 10 n).isEmpty = false := by
    simp [Nat.toDigits_ne_nil]
  rw [readDigits?, hall, hne, ofDigits_padded]
  rfl

theorem readDigits?_toDigits (n : Nat) : readDigits? (Nat.toDigits 10 n) = some n :=
  readDigits?_padded 0 n

theorem toDigits_head?_ne_zero {n : Nat} (hn : 0 < n) :
    (Nat.toDigits 10 n).head? ≠ some '0' := by
  induction n using Nat.strongRecOn with
  | ind n ih =>
    by_cases hlt : n < 10
    · rw [Nat.toDigits_of_lt_base hlt]
      interval_cases n <;> decide
    · have htail := ih (n / 10) (by omega) (by omega)
      rwa [Nat.toDigits_of_base_le (by decide) (by omega),
        List.head?_append_of_ne_nil _ Nat.toDigits_ne_nil]

theorem digitChar_of_isDigit {c : Char} (h : c.isDigit = true) :
    c.toNat - '0'.toNat < 10 ∧ (c.toNat - '0'.toNat).digitChar = c := by
  have hdigits : ∀ d < 10, (Char.ofNat (d + 48)).toNat - '0'.toNat = d ∧
      d.digitChar = Char.ofNat (d + 48) := by decide
  simp only [Char.isDigit, Bool.and_eq_true, decide_eq_true_eq, ge_iff_le,
    UInt32.le_iff_toNat_le] at h
  obtain ⟨hlow, hhigh⟩ : 48 ≤ c.toNat ∧ c.toNat ≤ 57 := h
  obtain ⟨hvalue, hchar⟩ := hdigits (c.toNat - 48) (by omega)
  rw [Nat.sub_add_cancel hlow, Char.ofNat_toNat] at hvalue hchar
  rw [hvalue]
  exact ⟨by omega, hchar⟩

/-- Digits without needless zeros are those of the number that they are read as. -/
theorem toDigits_ofDigits {cs : List Char} (hne : cs ≠ []) (hdigits : ∀ c ∈ cs, c.isDigit = true)
    (hzero : cs.head? = some '0' → cs = ['0']) : Nat.toDigits 10 (ofDigits cs) = cs := by
  induction cs using List.reverseRecOn with
  | nil => exact absurd rfl hne
  | append_singleton cs c ih =>
    obtain ⟨hlt, hchar⟩ := digitChar_of_isDigit (hdigits c (by simp))
    have hvalue : ofDigits (cs ++ [c]) = ofDigits cs * 10 + (c.toNat - '0'.toNat) := by
      rw [ofDigits, List.foldl_append]
      rfl
    by_cases hcs : cs = []
    · subst hcs
      rw [hvalue, Nat.toDigits_of_lt_base (by simpa [ofDigits] using hlt)]
      simpa [ofDigits] using hchar
    · have hhead : cs.head? ≠ some '0' := by
        intro hhead
        have hsingle := hzero (by rw [List.head?_append_of_ne_nil _ hcs]; exact hhead)
        have hlength := congrArg List.length hsingle
        simp [List.length_append, hcs] at hlength
      have hlead := ih hcs (fun c hc => hdigits c (List.mem_append_left _ hc))
        fun h => absurd h hhead
      have hpos : 0 < ofDigits cs := by
        refine Nat.pos_of_ne_zero fun hvanishes => hhead ?_
        rw [← hlead, hvanishes]
        rfl
      generalize c.toNat - '0'.toNat = d at *
      have hquotient : (ofDigits cs * 10 + d) / 10 = ofDigits cs := by omega
      have hremainder : (ofDigits cs * 10 + d) % 10 = d := by omega
      rw [hvalue, Nat.toDigits_of_base_le (by decide) (by omega), hquotient, hremainder, hlead,
        hchar]

end Integer

namespace Decimal

/-! ## Texts -/

theorem isExponentMark_of_isDigit {c : Char} (h : c.isDigit = true) :
    isExponentMark c = false := by
  refine Bool.eq_false_iff.mpr fun hmark => ?_
  rcases Bool.or_eq_true_iff.mp hmark with he | he
  all_goals
    rw [eq_of_beq he] at h
    exact absurd h (by decide)

theorem ne_point_of_isDigit {c : Char} (h : c.isDigit = true) : c ≠ '.' := by
  rintro rfl
  exact absurd h (by decide)

section Marks
variable {mantissa : List Char} (h : ∀ c ∈ mantissa, isExponentMark c = false)
include h

theorem takeWhile_mark (rest : List Char) :
    (mantissa ++ 'e' :: rest).takeWhile (fun c => !isExponentMark c) = mantissa := by
  rw [List.takeWhile_append_of_pos fun c hc => by rw [h c hc]; rfl,
    List.takeWhile_cons_of_neg (by decide), List.append_nil]

theorem dropWhile_mark (rest : List Char) :
    (mantissa ++ 'e' :: rest).dropWhile (fun c => !isExponentMark c) = 'e' :: rest := by
  rw [List.dropWhile_append_of_pos fun c hc => by rw [h c hc]; rfl,
    List.dropWhile_cons_of_neg (by decide)]

theorem takeWhile_noMark : mantissa.takeWhile (fun c => !isExponentMark c) = mantissa :=
  List.takeWhile_eq_self_iff.mpr fun c hc => by rw [h c hc]; rfl

theorem dropWhile_noMark : mantissa.dropWhile (fun c => !isExponentMark c) = [] :=
  List.dropWhile_eq_nil_iff.mpr fun c hc => by rw [h c hc]; rfl

end Marks

/-- The digits after a point, with the point if there are any. -/
def pointed (fraction : List Char) : List Char :=
  if fraction = [] then [] else '.' :: fraction

/-- What may follow a mantissa: nothing, or an exponent after its mark. -/
inductive IsTail : List Char → Int → Prop where
  | nothing : IsTail [] 0
  | exponent {rest : List Char} {e : Int} :
    readExponent? rest = some e → (∀ c ∈ rest, c.isDigit = true ∨ c = '-') →
      IsTail ('e' :: rest) e

/-- How a numeral is written: digits before and after the point, and an exponent. -/
structure Spelling (d : Decimal) (whole fraction tail : List Char) (shift : Int) : Prop where
  text : d.text = whole ++ pointed fraction ++ tail
  digits : ∀ c ∈ whole ++ fraction, c.isDigit = true
  value : Integer.readDigits? (whole ++ fraction) = some d.digits
  nonempty : whole ≠ []
  leading : whole.head? ≠ some '0' ∨ whole.length = 1
  exponent : IsTail tail shift
  place : d.exponent = shift - fraction.length

theorem toDigits_leading (n : Nat) :
    (Nat.toDigits 10 n).head? ≠ some '0' ∨ (Nat.toDigits 10 n).length = 1 := by
  rcases Nat.eq_zero_or_pos n with rfl | hn
  · exact Or.inr (by decide)
  · exact Or.inl (Integer.toDigits_head?_ne_zero hn)

theorem readExponent?_eq_some_iff {cs : List Char} {e : Int} :
    readExponent? cs = some e ↔
      ∃ sign negative digits, (sign, negative) ∈ Text.signs ∧
        (digits ≠ [] ∧ ∀ c ∈ digits, c.isDigit = true) ∧ cs = sign ++ digits ∧
        e = Integer.ofSize negative (Integer.ofDigits digits) := by
  have hsign (c : Char) (rest : List Char) (hc : c.isDigit = false) :
      Integer.readDigits? (c :: rest) = none := by
    simp [Integer.readDigits?, hc]
  rw [readExponent?, Text.readSigned?_eq_some_iff fun negative rest =>
    ⟨by rw [hsign _ _ (by decide)]; rfl, by rw [hsign _ _ (by decide)]; rfl⟩]
  constructor
  · rintro ⟨sign, negative, digits, hmem, hcs, hread⟩
    obtain ⟨n, hn, rfl⟩ := Option.map_eq_some_iff.mp hread
    obtain ⟨hdigits, rfl⟩ := Integer.readDigits?_eq_some_iff.mp hn
    exact ⟨sign, negative, digits, hmem, hdigits, hcs, rfl⟩
  · rintro ⟨sign, negative, digits, hmem, hdigits, hcs, rfl⟩
    refine ⟨sign, negative, digits, hmem, hcs, ?_⟩
    rw [Integer.readDigits?_eq_some_iff.mpr ⟨hdigits, rfl⟩]
    rfl

theorem readExponent?_toDigits (n : Nat) : readExponent? (Nat.toDigits 10 n) = some (n : Int) := by
  obtain ⟨hdigits, hvalue⟩ :=
    Integer.readDigits?_eq_some_iff.mp (Integer.readDigits?_toDigits n)
  exact readExponent?_eq_some_iff.mpr
    ⟨[], false, _, by decide, hdigits, rfl, congrArg (Integer.ofSize false) hvalue⟩

theorem readExponent?_neg_toDigits (n : Nat) :
    readExponent? ('-' :: Nat.toDigits 10 n) = some (-n : Int) := by
  obtain ⟨hdigits, hvalue⟩ :=
    Integer.readDigits?_eq_some_iff.mp (Integer.readDigits?_toDigits n)
  exact readExponent?_eq_some_iff.mpr
    ⟨['-'], true, _, by decide, hdigits, rfl, congrArg (Integer.ofSize true) hvalue⟩

theorem spelling_digits {d : Decimal} {tail : List Char}
    (htext : d.text = Nat.toDigits 10 d.digits ++ tail) (htail : IsTail tail d.exponent) :
    d.Spelling (Nat.toDigits 10 d.digits) [] tail d.exponent where
  text := by
    rw [htext, pointed, if_pos rfl, List.append_nil]
  digits c hc := by
    rw [List.append_nil] at hc
    exact Nat.isDigit_of_mem_toDigits (by decide) (by decide) hc
  value := by
    rw [List.append_nil]
    exact Integer.readDigits?_toDigits d.digits
  nonempty := Nat.toDigits_ne_nil
  leading := toDigits_leading d.digits
  exponent := htail
  place := by simp

theorem spelling_point {d : Decimal} {places : Nat} (hplaces : 0 < places)
    (hexponent : d.exponent = -places) (hshort : places ≤ longestFraction) :
    let ds := padded (places + 1) (Nat.toDigits 10 d.digits)
    d.Spelling (ds.take (ds.length - places)) (ds.drop (ds.length - places)) [] 0 := by
  intro ds
  have hlength : places + 1 ≤ ds.length := by
    simp only [ds, padded, List.length_append, List.length_replicate]
    omega
  have hfraction : (ds.drop (ds.length - places)).length = places := by
    rw [List.length_drop]
    omega
  have hwhole : (ds.take (ds.length - places)).length = ds.length - places := by
    rw [List.length_take]
    omega
  have hpointed : pointed (ds.drop (ds.length - places)) = '.' :: ds.drop (ds.length - places) :=
    if_neg (List.ne_nil_of_length_pos (by omega))
  constructor
  · have hpower : (-d.exponent).toNat = places := by omega
    rw [text, if_neg (by omega), if_neg (by omega), hpower, if_pos hshort, hpointed,
      List.append_nil]
  · rw [List.take_append_drop]
    exact fun c hc => Integer.isDigit_of_mem_padded hc
  · rw [List.take_append_drop]
    exact Integer.readDigits?_padded _ _
  · exact List.ne_nil_of_length_pos (by omega)
  · -- zeros are put before the digits only as far as the digit before the point
    by_cases hmany : places + 1 ≤ (Nat.toDigits 10 d.digits).length
    · have hds : ds = Nat.toDigits 10 d.digits := by
        simp only [ds, padded, Nat.sub_eq_zero_of_le hmany, List.replicate_zero, List.nil_append]
      have hdigits : 0 < d.digits := by
        refine Nat.pos_of_ne_zero fun hzero => ?_
        rw [hzero] at hmany
        have hone : (Nat.toDigits 10 0).length = 1 := by decide
        omega
      have hhead : (ds.take (ds.length - places)).head? = ds.head? := by
        rw [List.head?_take, if_neg (by omega)]
      rw [hhead, hds]
      exact Or.inl (Integer.toDigits_head?_ne_zero hdigits)
    · refine Or.inr ?_
      rw [hwhole]
      simp only [ds, padded, List.length_append, List.length_replicate]
      omega
  · exact .nothing
  · rw [hfraction, hexponent]
    omega

theorem exists_spelling (d : Decimal) :
    ∃ whole fraction tail shift, d.Spelling whole fraction tail shift := by
  have hdigit (n : Nat) (c : Char) (hc : c ∈ Nat.toDigits 10 n) : c.isDigit = true :=
    Nat.isDigit_of_mem_toDigits (by decide) (by decide) hc
  rcases lt_trichotomy d.exponent 0 with hneg | hzero | hpos
  · obtain ⟨places, hplaces⟩ : ∃ places : Nat, d.exponent = -places :=
      ⟨d.exponent.natAbs, by omega⟩
    have hpower : (-d.exponent).toNat = places := by omega
    by_cases hshort : places ≤ longestFraction
    · exact ⟨_, _, _, _, spelling_point (by omega) hplaces hshort⟩
    · refine ⟨_, _, 'e' :: '-' :: Nat.toDigits 10 places, _, spelling_digits ?_ ?_⟩
      · rw [text, if_neg (by omega), if_neg (by omega), hpower, if_neg hshort]
      · rw [hplaces]
        refine .exponent (readExponent?_neg_toDigits places) ?_
        intro c hc
        rcases List.mem_cons.mp hc with rfl | hc
        · exact Or.inr rfl
        · exact Or.inl (hdigit places c hc)
  · refine ⟨_, _, [], _, spelling_digits ?_ ?_⟩
    · rw [text, if_pos hzero, List.append_nil]
    · rw [hzero]
      exact .nothing
  · refine ⟨_, _, 'e' :: Nat.toDigits 10 d.exponent.toNat, _, spelling_digits ?_ ?_⟩
    · rw [text, if_neg (by omega), if_pos hpos]
    · refine .exponent ?_ fun c hc => Or.inl (hdigit _ c hc)
      rw [readExponent?_toDigits, Int.toNat_of_nonneg hpos.le]

namespace Spelling
variable {d : Decimal} {whole fraction tail : List Char} {shift : Int}

theorem noPoint (h : d.Spelling whole fraction tail shift) : ∀ c ∈ whole, (c != '.') = true :=
  fun c hc => bne_iff_ne.mpr (ne_point_of_isDigit (h.digits c (List.mem_append_left _ hc)))

theorem noMark (h : d.Spelling whole fraction tail shift) {c : Char}
    (hc : c ∈ whole ++ pointed fraction) : isExponentMark c = false := by
  have hdigit {c : Char} (hc : c ∈ whole ++ fraction) : isExponentMark c = false :=
    isExponentMark_of_isDigit (h.digits c hc)
  rw [pointed] at hc
  split at hc
  · exact hdigit (List.mem_append_left _ (by simpa using hc))
  · rcases List.mem_append.mp hc with hc | hc
    · exact hdigit (List.mem_append_left _ hc)
    · rcases List.mem_cons.mp hc with rfl | hc
      · rfl
      · exact hdigit (List.mem_append_right _ hc)

theorem takeWhile_text (h : d.Spelling whole fraction tail shift) :
    d.text.takeWhile (fun c => !isExponentMark c) = whole ++ pointed fraction := by
  have hmark : ∀ c ∈ whole ++ pointed fraction, isExponentMark c = false := fun c => h.noMark
  rw [h.text]
  cases h.exponent with
  | nothing => rw [List.append_nil, takeWhile_noMark hmark]
  | exponent _ _ => rw [takeWhile_mark hmark]

theorem dropWhile_text (h : d.Spelling whole fraction tail shift) :
    d.text.dropWhile (fun c => !isExponentMark c) = tail := by
  have hmark : ∀ c ∈ whole ++ pointed fraction, isExponentMark c = false := fun c => h.noMark
  rw [h.text]
  cases h.exponent with
  | nothing => rw [List.append_nil, dropWhile_noMark hmark]
  | exponent _ _ => rw [dropWhile_mark hmark]

theorem takeWhile_point (h : d.Spelling whole fraction tail shift) :
    (whole ++ pointed fraction).takeWhile (· != '.') = whole := by
  rw [List.takeWhile_append_of_pos h.noPoint, pointed]
  split <;> simp

theorem dropWhile_point (h : d.Spelling whole fraction tail shift) :
    (whole ++ pointed fraction).dropWhile (· != '.') = pointed fraction := by
  rw [List.dropWhile_append_of_pos h.noPoint, pointed]
  split <;> simp

theorem splitPoint_mantissa (h : d.Spelling whole fraction tail shift) :
    splitPoint (whole ++ pointed fraction) = (whole, fraction) := by
  have hfraction : (pointed fraction).drop 1 = fraction := by
    rw [pointed]
    split
    · rename_i hnone
      rw [hnone, List.drop_nil]
    · rfl
  rw [splitPoint, h.takeWhile_point, h.dropWhile_point, hfraction]

end Spelling

theorem read?_text (d : Decimal) : read? d.text = some d := by
  obtain ⟨whole, fraction, tail, shift, h⟩ := exists_spelling d
  have hplace := h.place
  have hd : (⟨d.digits, shift - fraction.length⟩ : Decimal) = d := by rw [← hplace]
  simp only [read?, h.takeWhile_text, h.dropWhile_text, h.splitPoint_mantissa, h.value]
  cases h.exponent with
  | nothing => exact congrArg some hd
  | exponent hread _ =>
    simp only [hread]
    exact congrArg some hd

/-! ## All digits of a number -/

/-- A power of five has more than nine binary digits for every four factors. -/
theorem two_pow_le_five_pow (k : Nat) : 2 ^ (9 * (k / 4)) ≤ 5 ^ k := by
  calc 2 ^ (9 * (k / 4)) = (2 ^ 9) ^ (k / 4) := Nat.pow_mul 2 9 (k / 4)
    _ ≤ (5 ^ 4) ^ (k / 4) := Nat.pow_le_pow_left (by decide) _
    _ = 5 ^ (4 * (k / 4)) := (Nat.pow_mul 5 4 (k / 4)).symm
    _ ≤ 5 ^ k := Nat.pow_le_pow_right (by decide) (Nat.mul_div_le k 4)

/-- The numeral of a finite number has digits enough for its powers of ten to be built. -/
theorem not_tiny {m k : Nat} (hm : 0 < m) (hk : k ≤ 1074) :
    ¬ digitBound (m * 5 ^ k) + smallestPower < k := by
  have hpow : 2 ^ (9 * (k / 4)) ≤ m * 5 ^ k :=
    (two_pow_le_five_pow k).trans (Nat.le_mul_of_pos_left _ hm)
  have hpos : m * 5 ^ k ≠ 0 := (Nat.mul_pos hm (Nat.pow_pos (by decide))).ne'
  have hlog : 9 * (k / 4) ≤ (m * 5 ^ k).log2 := (Nat.le_log2 hpos).mpr hpow
  rw [digitBound, smallestPower]
  omega

theorem range_ofParts {p : Binary64.Parts} (hp : p.Canonical) (hpos : 0 < p.mantissa) :
    ∃ num den, 0 < num ∧ 0 < den ∧ (ofParts p).range = .ordinary num den ∧
      (num / den : ℚ) = p.size := by
  rw [ofParts]
  split
  · rename_i h
    obtain ⟨k, hk⟩ := Int.eq_ofNat_of_zero_le h
    have hdigits : 0 < p.mantissa * 2 ^ k := Nat.mul_pos hpos (Nat.two_pow_pos k)
    refine ⟨p.mantissa * 2 ^ k, 1, hdigits, one_pos, ?_, ?_⟩
    · have hpower : p.exponent.toNat = k := by omega
      rw [hpower, range, if_neg hdigits.ne', if_neg (by simp), if_pos (le_refl _)]
      simp
    · rw [Binary64.Parts.size, hk]
      push_cast
      rw [div_one, zpow_natCast]
  · obtain ⟨k, hk⟩ : ∃ k : Nat, p.exponent = -k := ⟨p.exponent.natAbs, by omega⟩
    have hlow := hp.exponent
    have hdigits : 0 < p.mantissa * 5 ^ k := Nat.mul_pos hpos (Nat.pow_pos (by decide))
    refine ⟨p.mantissa * 5 ^ k, 10 ^ k, hdigits, Nat.pow_pos (by decide), ?_, ?_⟩
    · have hpower : (-p.exponent).toNat = k := by omega
      simp only [range, hpower]
      rw [if_neg hdigits.ne', if_neg (by rw [largestPower]; omega), if_neg (by omega),
        if_neg (not_tiny hpos (by omega))]
    · have hten : (10 : ℚ) ^ k = 5 ^ k * 2 ^ k := by rw [← mul_pow]; norm_num
      have hfive : (5 : ℚ) ^ k ≠ 0 := by positivity
      rw [Binary64.Parts.size, hk]
      push_cast
      rw [hten, zpow_neg, zpow_natCast, ← div_eq_mul_inv, mul_comm _ ((5 : ℚ) ^ k),
        mul_div_mul_left _ _ hfive]

theorem readMagnitude_ofParts {p : Binary64.Parts} (hp : p.Canonical) (hpos : 0 < p.mantissa) :
    (ofParts p).readMagnitude = p.pattern := by
  obtain ⟨num, den, hnum, hden, hrange, hvalue⟩ := range_ofParts hp hpos
  rw [readMagnitude, hrange]
  exact Binary64.readMagnitude_eq_pattern hp _ hnum hden hvalue

theorem readMagnitude_written {p : Binary64.Parts} (hp : p.Canonical) :
    (written p p.pattern).readMagnitude = p.pattern := by
  rw [written]
  split
  · rename_i hzero
    have hexponent : p.exponent = -1074 := hp.leading (by rw [hzero]; decide)
    rw [Binary64.Parts.pattern, hzero, hexponent]
    rfl
  · rename_i hmantissa
    have hpos : 0 < p.mantissa := Nat.pos_of_ne_zero hmantissa
    split
    · exact readMagnitude_ofParts hp hpos
    · split
      · rename_i d hshort
        rw [shortest?] at hshort
        have hread := List.find?_some hshort
        exact eq_of_beq hread
      · exact readMagnitude_ofParts hp hpos

theorem toFinite?_written {x : Float} {p : Binary64.Parts} (h : Binary64.parts? x = some p) :
    (written p (Binary64.magnitude x)).toFinite? p.negative = some x := by
  obtain ⟨hcanonical, hmagnitude, -, hexponent⟩ := Binary64.canonical_of_parts? h
  have hread : (written p (Binary64.magnitude x)).readMagnitude = Binary64.magnitude x := by
    rw [hmagnitude]
    exact readMagnitude_written hcanonical
  have hfinite : Binary64.magnitude x < Binary64.infinityPattern := by
    rw [hmagnitude]
    exact hcanonical.pattern_lt hexponent
  rw [toFinite?, hread, if_pos hfinite, toFloat, hread, Binary64.ofMagnitude_of_parts? h]

theorem isFinite_of_toFinite? {negative : Bool} {d : Decimal} {x : Float}
    (h : d.toFinite? negative = some x) : Binary64.isFinite x = true := by
  rw [toFinite?] at h
  split at h
  · rename_i hlt
    obtain rfl := Option.some.inj h
    exact Binary64.isFinite_ofMagnitude negative hlt
  · cases h

end Decimal
end Underwriting
