import Underwriting.Json.Parser
import Underwriting.Json.Printer
import Underwriting.Proofs.Json.Syntax
import Underwriting.Proofs.Number.Numeral

/-! # Numbers in JSON text

A number is as long as the characters of numbers go, and they make up a number of the
grammar. The text of a finite number is one, it is read as that very number, and nothing else
than finite numbers is ever read.
-/
namespace Underwriting.Json

theorem ne_of_isNumberChar {c mark : Char} (h : isNumberChar c = true)
    (hmark : isNumberChar mark = false) : c ≠ mark := by
  rintro rfl
  rw [h] at hmark
  cases hmark

structure IsNumber (digits : List Char) (x : Float) : Prop where
  chars : ∀ c ∈ digits, isNumberChar c = true
  value : readNumber digits = some (.number x, [])

/-- What may follow a number: anything that would not be taken for a part of it. -/
def EndsNumber (rest : List Char) : Prop := ∀ c tail, rest = c :: tail → isNumberChar c = false

theorem endsNumber_cons {c : Char} (tail : List Char) (h : isNumberChar c = false) :
    EndsNumber (c :: tail) := by
  rintro c' tail' ⟨⟩
  exact h

section Reading
variable {t : List Char}

theorem takeWhile_numberChar {digits rest : List Char} (h : ∀ c ∈ digits, isNumberChar c = true)
    (hrest : EndsNumber rest) : (digits ++ rest).takeWhile isNumberChar = digits := by
  rw [List.takeWhile_append_of_pos h]
  cases rest with
  | nil => exact List.append_nil digits
  | cons c tail =>
    rw [List.takeWhile_cons_of_neg (Bool.eq_false_iff.mp (hrest c tail rfl)), List.append_nil]

theorem dropWhile_numberChar {digits rest : List Char} (h : ∀ c ∈ digits, isNumberChar c = true)
    (hrest : EndsNumber rest) : (digits ++ rest).dropWhile isNumberChar = rest := by
  rw [List.dropWhile_append_of_pos h]
  cases rest with
  | nil => rfl
  | cons c tail => exact List.dropWhile_cons_of_neg (Bool.eq_false_iff.mp (hrest c tail rfl))

theorem endsNumber_dropWhile (t : List Char) : EndsNumber (t.dropWhile isNumberChar) := by
  intro c tail h
  have hhead := List.head?_dropWhile_not isNumberChar t
  rw [h] at hhead
  exact Bool.eq_false_iff.mpr fun hc => by simp [hc] at hhead

theorem finite_of_readUnsigned {negative : Bool} {body : List Char} {v : Value}
    (h : readUnsigned negative body = some v) :
    ∃ x, v = .number x ∧ Binary64.isFinite x = true := by
  rw [readUnsigned] at h
  split at h
  · split at h
    · cases h
    · obtain ⟨x, hx, rfl⟩ := Option.map_eq_some_iff.mp h
      exact ⟨x, rfl, Decimal.isFinite_of_toFinite? hx⟩
  · cases h

theorem finite_of_readNumber {v : Value} {rest : List Char} (h : readNumber t = some (v, rest)) :
    ∃ x, v = .number x ∧ Binary64.isFinite x = true := by
  rw [readNumber] at h
  obtain ⟨v', hread, hpair⟩ := Option.map_eq_some_iff.mp h
  obtain ⟨rfl, -⟩ := Prod.mk.inj hpair
  split at hread
  · exact finite_of_readUnsigned hread
  · exact finite_of_readUnsigned hread

theorem readNumber_eq_some_iff {v : Value} {rest : List Char} :
    readNumber t = some (v, rest) ↔
      ∃ digits x, t = digits ++ rest ∧ IsNumber digits x ∧ EndsNumber rest ∧ v = .number x := by
  constructor
  · intro h
    obtain ⟨x, rfl, -⟩ := finite_of_readNumber h
    have hchars : ∀ c ∈ t.takeWhile isNumberChar, isNumberChar c = true := fun c hc =>
      List.mem_takeWhile_imp hc
    rw [readNumber] at h
    obtain ⟨v', hread, hpair⟩ := Option.map_eq_some_iff.mp h
    obtain ⟨rfl, rfl⟩ := Prod.mk.inj hpair
    refine ⟨t.takeWhile isNumberChar, x, List.takeWhile_append_dropWhile.symm, ⟨hchars, ?_⟩,
      endsNumber_dropWhile t, rfl⟩
    rw [readNumber, List.takeWhile_eq_self_iff.mpr hchars, List.dropWhile_eq_nil_iff.mpr hchars,
      hread]
    rfl
  · rintro ⟨digits, x, rfl, hnumber, hrest, rfl⟩
    have hvalue := hnumber.value
    have hall := hnumber.chars
    rw [readNumber, List.takeWhile_eq_self_iff.mpr hall] at hvalue
    obtain ⟨v', hread, hpair⟩ := Option.map_eq_some_iff.mp hvalue
    obtain ⟨rfl, -⟩ := Prod.mk.inj hpair
    rw [readNumber, takeWhile_numberChar hall hrest, dropWhile_numberChar hall hrest, hread]
    rfl

theorem IsNumber.finite {digits : List Char} {x : Float} (h : IsNumber digits x) :
    Binary64.isFinite x = true := by
  obtain ⟨x', hx, hfinite⟩ := finite_of_readNumber h.value
  obtain rfl := Value.number.inj hx
  exact hfinite

theorem IsNumber.ne_nil {digits : List Char} {x : Float} (h : IsNumber digits x) :
    digits ≠ [] := by
  rintro rfl
  cases h.value

end Reading

/-! ## What numbers are made of -/

theorem exponent_of_readExponent? {cs : List Char} {e : Int}
    (h : Decimal.readExponent? cs = some e) :
    ∃ sign ∈ [[], ['+'], ['-']], ∃ ds, Syntax.Digits ds ∧ cs = sign ++ ds := by
  obtain ⟨sign, negative, ds, hsign, hdigits, hcs, -⟩ := Decimal.readExponent?_eq_some_iff.mp h
  exact ⟨sign, List.mem_map_of_mem (f := Prod.fst) hsign, ds, hdigits, hcs⟩

/-- What the mantissa of a number is made of: digits, and if there is a point, digits after it. -/
theorem mantissa_of_strict {cs : List Char} {n : Nat} (hstrict : isStrictMantissa cs = true)
    (hdigits : Integer.readDigits? ((Decimal.splitPoint cs).1 ++ (Decimal.splitPoint cs).2) =
      some n) :
    ∃ whole fraction, Syntax.Whole whole ∧ Syntax.Fraction fraction ∧ cs = whole ++ fraction := by
  simp only [isStrictMantissa, Bool.and_eq_true, Bool.not_eq_true', List.isEmpty_eq_false_iff,
    Bool.or_eq_true, bne_iff_ne, beq_iff_eq] at hstrict
  obtain ⟨⟨hne, hleading⟩, hpoint⟩ := hstrict
  have hall := (Integer.readDigits?_eq_some_iff.mp hdigits).1.2
  rw [Decimal.splitPoint, List.forall_mem_append] at hall
  obtain ⟨hwhole, hfraction⟩ := hall
  refine ⟨cs.takeWhile (· != '.'), cs.dropWhile (· != '.'), ⟨⟨hne, hwhole⟩, fun hzero => ?_⟩, ?_,
    List.takeWhile_append_dropWhile.symm⟩
  · obtain ⟨tail, htail⟩ := List.head?_eq_some_iff.mp hzero
    rcases hleading with hnonzero | hone
    · exact absurd hzero hnonzero
    · rw [htail, List.length_cons, Nat.add_eq_right, List.length_eq_zero_iff] at hone
      rw [htail, hone]
  · cases hdrop : cs.dropWhile (· != '.') with
    | nil => exact Or.inl rfl
    | cons c ds =>
      have hhead := List.head?_dropWhile_not (· != '.') cs
      rw [hdrop] at hhead hpoint hfraction
      obtain rfl : c = '.' := bne_eq_false_iff_eq.mp hhead
      exact Or.inr ⟨ds, ⟨fun hnil => hpoint (by rw [hnil]), hfraction⟩, rfl⟩

theorem exists_parts_of_readUnsigned {negative : Bool} {body : List Char} {v : Value}
    (h : readUnsigned negative body = some v) :
    ∃ whole fraction exponent, Syntax.Whole whole ∧ Syntax.Fraction fraction ∧
      Syntax.Exponent exponent ∧ body = whole ++ (fraction ++ exponent) := by
  rw [readUnsigned] at h
  split at h
  · rename_i hstrict
    split at h
    · cases h
    · rename_i d hread
      simp only [Decimal.read?] at hread
      split at hread
      · rename_i e n hexponent hdigits
        obtain ⟨whole, fraction, hwhole, hfraction, hmantissa⟩ :=
          mantissa_of_strict hstrict hdigits
        refine ⟨whole, fraction, body.dropWhile fun c => !Decimal.isExponentMark c, hwhole,
          hfraction, ?_, ?_⟩
        · cases hdrop : body.dropWhile fun c => !Decimal.isExponentMark c with
          | nil => exact Or.inl rfl
          | cons mark rest =>
            have hmark := List.head?_dropWhile_not (fun c => !Decimal.isExponentMark c) body
            rw [hdrop] at hmark hexponent
            obtain ⟨sign, hsign, ds, hds, rfl⟩ := exponent_of_readExponent? hexponent
            exact Or.inr ⟨mark, by
              simpa [Decimal.isExponentMark, or_iff_not_imp_left] using hmark, sign, hsign, ds, hds,
              rfl⟩
        · rw [← List.append_assoc, ← hmantissa, List.takeWhile_append_dropWhile]
      · cases hread
  · cases h

theorem IsNumber.written {digits : List Char} {x : Float} (h : IsNumber digits x) :
    Syntax.Number digits := by
  have hread := h.value
  rw [readNumber, List.takeWhile_eq_self_iff.mpr h.chars] at hread
  obtain ⟨v, hread, -⟩ := Option.map_eq_some_iff.mp hread
  split at hread
  · obtain ⟨whole, fraction, exponent, hwhole, hfraction, hexponent, rfl⟩ :=
      exists_parts_of_readUnsigned hread
    exact ⟨['-'], by decide, whole, fraction, exponent, hwhole, hfraction, hexponent, rfl⟩
  · obtain ⟨whole, fraction, exponent, hwhole, hfraction, hexponent, rfl⟩ :=
      exists_parts_of_readUnsigned hread
    exact ⟨[], by decide, whole, fraction, exponent, hwhole, hfraction, hexponent, rfl⟩

/-! ## Writing -/

theorem isNumberChar_of_isDigit {c : Char} (h : c.isDigit = true) : isNumberChar c = true := by
  simp [isNumberChar, h]

theorem isStrictMantissa_text (d : Decimal) :
    isStrictMantissa (d.text.takeWhile fun c => !Decimal.isExponentMark c) = true := by
  obtain ⟨whole, fraction, tail, shift, h⟩ := d.exists_spelling
  have hpoint : Decimal.pointed fraction ≠ ['.'] := by
    rw [Decimal.pointed]
    split
    · exact List.cons_ne_nil _ _ ∘ Eq.symm
    · rename_i hfraction
      exact fun heq => hfraction (List.cons.inj heq).2
  rw [h.takeWhile_text, isStrictMantissa, h.takeWhile_point, h.dropWhile_point]
  simp only [Bool.and_eq_true, Bool.not_eq_true', List.isEmpty_eq_false_iff, Bool.or_eq_true,
    bne_iff_ne, beq_iff_eq]
  exact ⟨⟨h.nonempty, h.leading⟩, hpoint⟩

theorem isNumberChar_of_mem_text {d : Decimal} {c : Char} (hc : c ∈ d.text) :
    isNumberChar c = true := by
  obtain ⟨whole, fraction, tail, shift, h⟩ := d.exists_spelling
  have hdigit {c : Char} (hc : c ∈ whole ++ fraction) : isNumberChar c = true :=
    isNumberChar_of_isDigit (h.digits c hc)
  rw [h.text] at hc
  rcases List.mem_append.mp hc with hc | hc
  · rcases List.mem_append.mp hc with hc | hc
    · exact hdigit (List.mem_append_left _ hc)
    · rw [Decimal.pointed] at hc
      split at hc
      · cases hc
      · rcases List.mem_cons.mp hc with rfl | hc
        · rfl
        · exact hdigit (List.mem_append_right _ hc)
  · cases h.exponent with
    | nothing => cases hc
    | exponent _ hrest =>
      rcases List.mem_cons.mp hc with rfl | hc
      · rfl
      · rcases hrest c hc with hc | rfl
        · exact isNumberChar_of_isDigit hc
        · rfl

/-- The text of a numeral begins with a digit, so it is not taken for a negative number. -/
theorem text_ne_minus (d : Decimal) (rest : List Char) : d.text ≠ '-' :: rest := by
  obtain ⟨whole, fraction, tail, shift, h⟩ := d.exists_spelling
  obtain ⟨c, whole', rfl⟩ := List.exists_cons_of_ne_nil h.nonempty
  have hdigit : c.isDigit = true := h.digits c List.mem_cons_self
  rw [h.text]
  intro heq
  obtain rfl : c = '-' := (List.cons.inj heq).1
  exact absurd hdigit (by decide)

theorem readUnsigned_text {negative : Bool} {d : Decimal} {x : Float}
    (h : d.toFinite? negative = some x) : readUnsigned negative d.text = some (.number x) := by
  rw [readUnsigned, if_pos (isStrictMantissa_text d), Decimal.read?_text]
  simp only [h, Option.map_some]

theorem isNumber_of_numberText? {x : Float} {digits : List Char}
    (h : numberText? x = some digits) : IsNumber digits x := by
  rw [numberText?] at h
  split at h
  · cases h
  · rename_i p hparts
    have hread := readUnsigned_text (Decimal.toFinite?_written hparts)
    generalize Decimal.written p (Binary64.magnitude x) = d at h hread
    have hchars : ∀ c ∈ d.text, isNumberChar c = true := fun c => isNumberChar_of_mem_text
    cases hsign : p.negative with
    | true =>
      rw [hsign] at h hread
      obtain rfl : '-' :: d.text = digits := Option.some.inj h
      have hall : ∀ c ∈ '-' :: d.text, isNumberChar c = true :=
        List.forall_mem_cons.mpr ⟨rfl, hchars⟩
      refine ⟨hall, ?_⟩
      rw [readNumber, List.takeWhile_eq_self_iff.mpr hall, List.dropWhile_eq_nil_iff.mpr hall]
      simp only [hread, Option.map_some]
    | false =>
      rw [hsign] at h hread
      obtain rfl : d.text = digits := Option.some.inj h
      refine ⟨hchars, ?_⟩
      rw [readNumber, List.takeWhile_eq_self_iff.mpr hchars,
        List.dropWhile_eq_nil_iff.mpr hchars]
      split
      · rename_i body heq
        exact absurd heq (text_ne_minus d body)
      · rw [hread, Option.map_some]

theorem exists_numberText? {x : Float} (h : Binary64.isFinite x = true) :
    ∃ digits, numberText? x = some digits := by
  obtain ⟨p, hp⟩ := Option.isSome_iff_exists.mp h
  rw [numberText?, hp]
  exact ⟨_, rfl⟩

end Underwriting.Json
