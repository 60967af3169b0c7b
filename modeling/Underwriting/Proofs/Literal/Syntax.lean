import Mathlib.Data.List.TakeDrop
import Underwriting.Number.Literal
import Underwriting.Proofs.Json.Syntax
import Underwriting.Proofs.Number.Numeral

/-! # The grammar of literals

What a numeric literal may look like, apart from how it is read: a sign, then an infinity, a NaN
with or without a tag, or a decimal or hexadecimal numeral. In a text operand it stands behind
space and before blanks, up to the end of the text or its first NUL character. A literal is read
from a text exactly when it stands there like that.
-/
namespace Underwriting.Literal
open Json.Syntax (Digits)
open Text (signs)

/-! ## Productions -/

/-- Digits of a kind, one at least, with or without a point at one place. -/
inductive IsMantissa (isDigit : Char → Bool) : List Char → List Char → List Char → Prop where
  | whole {whole : List Char} :
    whole ≠ [] → (∀ c ∈ whole, isDigit c = true) → IsMantissa isDigit whole whole []
  | pointed {whole fraction : List Char} :
    whole ++ fraction ≠ [] → (∀ c ∈ whole ++ fraction, isDigit c = true) →
      IsMantissa isDigit (whole ++ '.' :: fraction) whole fraction

/-- Nothing, or an exponent after its mark. -/
inductive IsExponent (isMark : Char → Bool) : List Char → Int → Prop where
  | nothing : IsExponent isMark [] 0
  | marked {mark : Char} {sign digits : List Char} {negative : Bool} :
    isMark mark = true → (sign, negative) ∈ signs → Digits digits →
      IsExponent isMark (mark :: (sign ++ digits))
        (Integer.ofSize negative (Integer.ofDigits digits))

/-- A mantissa, and an exponent if there is one. -/
def IsNumeral (isDigit isMark : Char → Bool) (text whole fraction : List Char) (e : Int) : Prop :=
  ∃ mantissa tail, IsMantissa isDigit mantissa whole fraction ∧ IsExponent isMark tail e ∧
    text = mantissa ++ tail

def isHexDigit (c : Char) : Bool := (Text.hexDigit? c).isSome

def isHexMark (c : Char) : Bool := c == 'p'

def isTagChar (c : Char) : Bool := c.isAlphanum || c == '_'

/-- The texts in lower case that spell a size. -/
inductive Spells : List Char → Size → Prop where
  | inf : Spells "inf".toList .infinite
  | infinity : Spells "infinity".toList .infinite
  | nan : Spells "nan".toList .notANumber
  | taggedNan {tag : List Char} :
    (∀ c ∈ tag, isTagChar c = true) → Spells ("nan(".toList ++ (tag ++ [')'])) .notANumber
  | decimal {text whole fraction : List Char} {e : Int} :
    IsNumeral Char.isDigit Decimal.isExponentMark text whole fraction e →
      Spells text (.decimal ⟨Integer.ofDigits (whole ++ fraction), e - fraction.length⟩)
  | hexadecimal {text whole fraction : List Char} {e : Int} :
    IsNumeral isHexDigit isHexMark text whole fraction e →
      Spells ('0' :: 'x' :: text)
        (.hexadecimal (ofHexDigits (whole ++ fraction)) (e - 4 * fraction.length))

/-- A text that is a literal as a whole. Letters may be of either case. -/
def IsWritten (text : List Char) (l : Literal) : Prop :=
  ∃ sign body, (sign, l.negative) ∈ signs ∧ Spells (body.map Char.toLower) l.size ∧
    text = sign ++ body

/-- The end of a text, or a NUL character with anything after it. -/
def EndsLiteral (rest : List Char) : Prop := ∀ c, rest.head? = some c → c = '\x00'

/-- A text operand that holds a literal and nothing else but space before it and blanks after it,
with an ending that nothing is read of. -/
def Holds (ending : List Char → Prop) (text : String) (l : Literal) : Prop :=
  ∃ space written blanks rest, (∀ c ∈ space, Text.isSpace c = true) ∧ IsWritten written l ∧
    (∀ c ∈ blanks, isBlank c = true) ∧ ending rest ∧
    text.toList = space ++ written ++ blanks ++ rest

/-! ## Reading numerals -/

def exponentOf? (isMark : Char → Bool) (cs : List Char) : Option Int :=
  match cs.dropWhile fun c => !isMark c with
  | [] => some 0
  | _ :: rest => Decimal.readExponent? rest

section Numeral
variable {isDigit isMark : Char → Bool} {cs whole fraction : List Char} {e : Int}

theorem exponentOf?_eq_some_iff :
    exponentOf? isMark cs = some e ↔
      ∃ tail, IsExponent isMark tail e ∧ cs = cs.takeWhile (fun c => !isMark c) ++ tail := by
  have hsplit := List.takeWhile_append_dropWhile (p := fun c => !isMark c) (l := cs)
  rw [exponentOf?]
  constructor
  · intro h
    refine ⟨_, ?_, hsplit.symm⟩
    cases hdrop : cs.dropWhile fun c => !isMark c with
    | nil =>
      rw [hdrop] at h
      obtain rfl := Option.some.inj h
      exact .nothing
    | cons mark rest =>
      rw [hdrop] at h
      obtain ⟨sign, negative, digits, hmem, hdigits, rfl, rfl⟩ :=
        Decimal.readExponent?_eq_some_iff.mp h
      refine .marked ?_ hmem hdigits
      have hhead := Text.head_dropWhile (congrArg List.head? hdrop)
      simpa using hhead
  · rintro ⟨tail, htail, hcs⟩
    rw [List.append_cancel_left (hsplit.trans hcs)]
    cases htail with
    | nothing => rfl
    | marked _ hmem hdigits =>
      exact Decimal.readExponent?_eq_some_iff.mpr ⟨_, _, _, hmem, hdigits, rfl, rfl⟩

theorem isMantissa_of_splitPoint (hne : whole ++ fraction ≠ [])
    (hdigits : ∀ c ∈ whole ++ fraction, isDigit c = true)
    (h : Decimal.splitPoint cs = (whole, fraction)) : IsMantissa isDigit cs whole fraction := by
  obtain ⟨hwhole, hfraction⟩ := Prod.mk.inj h
  have hsplit := List.takeWhile_append_dropWhile (p := (· != '.')) (l := cs)
  rw [hwhole] at hsplit
  cases hdrop : cs.dropWhile (· != '.') with
  | nil =>
    rw [hdrop] at hfraction hsplit
    obtain rfl : fraction = [] := hfraction.symm
    rw [List.append_nil] at hsplit hne hdigits
    rw [← hsplit]
    exact .whole hne hdigits
  | cons c rest =>
    have hhead := Text.head_dropWhile (congrArg List.head? hdrop)
    obtain rfl : c = '.' := bne_eq_false_iff_eq.mp hhead
    rw [hdrop] at hfraction hsplit
    obtain rfl : rest = fraction := hfraction
    rw [← hsplit]
    exact .pointed hne hdigits

theorem IsMantissa.digits (h : IsMantissa isDigit cs whole fraction) :
    whole ++ fraction ≠ [] ∧ ∀ c ∈ whole ++ fraction, isDigit c = true := by
  cases h with
  | whole hne hdigits =>
    rw [List.append_nil]
    exact ⟨hne, hdigits⟩
  | pointed hne hdigits => exact ⟨hne, hdigits⟩

theorem IsMantissa.digit_or_point (h : IsMantissa isDigit cs whole fraction) {c : Char}
    (hc : c ∈ cs) : isDigit c = true ∨ c = '.' := by
  cases h with
  | whole _ hdigits => exact Or.inl (hdigits c hc)
  | pointed _ hdigits =>
    rcases List.mem_append.mp hc with hc | hc
    · exact Or.inl (hdigits c (List.mem_append_left _ hc))
    · rcases List.mem_cons.mp hc with rfl | hc
      · exact Or.inr rfl
      · exact Or.inl (hdigits c (List.mem_append_right _ hc))

theorem IsMantissa.splitPoint (h : IsMantissa isDigit cs whole fraction)
    (hpoint : isDigit '.' = false) : Decimal.splitPoint cs = (whole, fraction) := by
  have hplain (ds : List Char) (hds : ∀ c ∈ ds, isDigit c = true) :
      ∀ c ∈ ds, (c != '.') = true := by
    intro c hc
    refine bne_iff_ne.mpr ?_
    rintro rfl
    rw [hds '.' hc] at hpoint
    cases hpoint
  cases h with
  | whole _ hdigits =>
    have hwhole := hplain cs hdigits
    rw [Decimal.splitPoint, List.takeWhile_eq_self_iff.mpr hwhole,
      List.dropWhile_eq_nil_iff.mpr hwhole, List.drop_nil]
  | pointed _ hdigits =>
    have hwhole := hplain whole fun c hc => hdigits c (List.mem_append_left _ hc)
    rw [Decimal.splitPoint, List.takeWhile_append_of_pos hwhole,
      List.dropWhile_append_of_pos hwhole]
    simp

theorem IsNumeral.char (h : IsNumeral isDigit isMark cs whole fraction e) {c : Char}
    (hc : c ∈ cs) :
    isDigit c = true ∨ isMark c = true ∨ c.isDigit = true ∨ c ∈ ['.', '+', '-'] := by
  obtain ⟨mantissa, tail, hmantissa, htail, rfl⟩ := h
  rcases List.mem_append.mp hc with hc | hc
  · rcases hmantissa.digit_or_point hc with hdigit | rfl
    · exact Or.inl hdigit
    · exact Or.inr (Or.inr (Or.inr (by decide)))
  · cases htail with
    | nothing => cases hc
    | marked hmark hsign hdigits =>
      rcases List.mem_cons.mp hc with rfl | hc
      · exact Or.inr (Or.inl hmark)
      · rcases List.mem_append.mp hc with hc | hc
        · refine Or.inr (Or.inr (Or.inr ?_))
          have hsigns : ∀ s ∈ signs, ∀ c ∈ s.1, c ∈ ['.', '+', '-'] := by simp [signs]
          exact hsigns _ hsign c hc
        · exact Or.inr (Or.inr (Or.inl (hdigits.2 c hc)))

theorem IsMantissa.exists_cons (h : IsMantissa isDigit cs whole fraction) :
    ∃ c rest, cs = c :: rest := by
  cases h with
  | whole hne _ => exact List.exists_cons_of_ne_nil hne
  | pointed _ _ => exact List.exists_cons_of_ne_nil (by simp)

/-- A numeral is recognized by its parts, when no mark is a digit or a point. -/
theorem isNumeral_iff (hmark : ∀ c, isMark c = true → isDigit c = false ∧ c ≠ '.')
    (hpoint : isDigit '.' = false) :
    IsNumeral isDigit isMark cs whole fraction e ↔
      exponentOf? isMark cs = some e ∧
        Decimal.splitPoint (cs.takeWhile fun c => !isMark c) = (whole, fraction) ∧
        whole ++ fraction ≠ [] ∧ ∀ c ∈ whole ++ fraction, isDigit c = true := by
  constructor
  · rintro ⟨mantissa, tail, hmantissa, htail, rfl⟩
    have hunmarked : ∀ c ∈ mantissa, (!isMark c) = true := by
      intro c hc
      rw [Bool.not_eq_true', Bool.eq_false_iff]
      intro hmarked
      obtain ⟨hdigit, hne⟩ := hmark c hmarked
      rcases hmantissa.digit_or_point hc with h | h
      · rw [h] at hdigit
        cases hdigit
      · exact hne h
    have htake : (mantissa ++ tail).takeWhile (fun c => !isMark c) = mantissa := by
      rw [List.takeWhile_append_of_pos hunmarked]
      cases htail with
      | nothing => exact List.append_nil mantissa
      | marked hmarked =>
        rw [List.takeWhile_cons_of_neg (by rw [hmarked]; decide), List.append_nil]
    refine ⟨exponentOf?_eq_some_iff.mpr ⟨tail, htail, by rw [htake]⟩, ?_, hmantissa.digits⟩
    rw [htake]
    exact hmantissa.splitPoint hpoint
  · rintro ⟨hexponent, hsplit, hne, hdigits⟩
    obtain ⟨tail, htail, hcs⟩ := exponentOf?_eq_some_iff.mp hexponent
    exact ⟨_, tail, isMantissa_of_splitPoint hne hdigits hsplit, htail, hcs⟩

theorem decimal_read?_eq_some_iff {d : Decimal} :
    Decimal.read? cs = some d ↔ ∃ whole fraction e,
      IsNumeral Char.isDigit Decimal.isExponentMark cs whole fraction e ∧
        d = ⟨Integer.ofDigits (whole ++ fraction), e - fraction.length⟩ := by
  have hmark (c : Char) (h : Decimal.isExponentMark c = true) : c.isDigit = false ∧ c ≠ '.' := by
    rcases Bool.or_eq_true_iff.mp h with hc | hc
    all_goals
      rw [eq_of_beq hc]
      decide
  simp only [isNumeral_iff hmark (by decide)]
  rw [Decimal.read?]
  constructor
  · intro h
    split at h
    · rename_i e n hexponent hdigits
      obtain rfl := Option.some.inj h
      obtain ⟨⟨hne, hall⟩, rfl⟩ := Integer.readDigits?_eq_some_iff.mp hdigits
      exact ⟨_, _, e, ⟨hexponent, rfl, hne, hall⟩, rfl⟩
    · cases h
  · rintro ⟨whole, fraction, e, ⟨hexponent, hsplit, hdigits⟩, rfl⟩
    have hread := Integer.readDigits?_eq_some_iff.mpr ⟨hdigits, rfl⟩
    rw [hsplit]
    split
    · rename_i e' n he' hn
      obtain rfl := Option.some.inj (hexponent.symm.trans he')
      obtain rfl := Option.some.inj (hread.symm.trans hn)
      rfl
    · rename_i hnone
      exact (hnone _ _ hexponent hread).elim

theorem readHexadecimal?_eq_some_iff {size : Size} :
    readHexadecimal? cs = some size ↔ ∃ whole fraction e,
      IsNumeral isHexDigit isHexMark cs whole fraction e ∧
        size = .hexadecimal (ofHexDigits (whole ++ fraction)) (e - 4 * fraction.length) := by
  have hmark (c : Char) (h : isHexMark c = true) : isHexDigit c = false ∧ c ≠ '.' := by
    rw [eq_of_beq h]
    decide
  simp only [isNumeral_iff hmark (by decide)]
  rw [readHexadecimal?]
  constructor
  · intro h
    split at h
    · cases h
    · rename_i e hexponent
      obtain ⟨hdigits, hsize⟩ := Option.ite_none_left_eq_some.mp h
      simp only [Bool.or_eq_true, List.isEmpty_iff, Bool.not_eq_true', not_or,
        Bool.not_eq_false, List.all_eq_true] at hdigits
      exact ⟨_, _, e, ⟨hexponent, rfl, hdigits⟩, (Option.some.inj hsize).symm⟩
  · rintro ⟨whole, fraction, e, ⟨hexponent, hsplit, hne, hdigits⟩, rfl⟩
    have hall : (whole ++ fraction).all (fun c => (Text.hexDigit? c).isSome) = true :=
      List.all_eq_true.mpr hdigits
    have hempty : (whole ++ fraction).isEmpty = false := List.isEmpty_eq_false_iff.mpr hne
    simp only [isHexMark] at hsplit
    split
    · rename_i hnone
      cases hexponent.symm.trans hnone
    · rename_i e' he'
      obtain rfl := Option.some.inj (hexponent.symm.trans he')
      simp only [hsplit, hall, hempty]
      rfl

end Numeral

/-! ## Reading literals -/

section Reading
variable {cs : List Char}

theorem isNanTag_iff :
    isNanTag cs = true ↔
      cs = [] ∨ ∃ tag, (∀ c ∈ tag, isTagChar c = true) ∧ cs = '(' :: (tag ++ [')']) := by
  constructor
  · intro h
    unfold isNanTag at h
    split at h
    · exact Or.inl rfl
    · rename_i rest
      obtain ⟨hlast, htag⟩ := Bool.and_eq_true_iff.mp h
      have hsplit := List.dropLast_append_getLast? ')' (eq_of_beq hlast)
      exact Or.inr ⟨rest.dropLast, List.all_eq_true.mp htag, by rw [hsplit]⟩
    · cases h
  · rintro (rfl | ⟨tag, htag, rfl⟩)
    · rfl
    · have hall : tag.all (fun c => c.isAlphanum || c == '_') = true := List.all_eq_true.mpr htag
      simp [isNanTag, hall]

theorem readSize?_eq_some_iff {size : Size} :
    readSize? cs = some size ↔ Spells (cs.map Char.toLower) size := by
  rw [readSize?]
  generalize cs.map Char.toLower = lower
  constructor
  · intro h
    split at h
    · rename_i hword
      obtain rfl := Option.some.inj h
      rcases hword with rfl | rfl
      · exact .inf
      · exact .infinity
    · split at h
      · obtain ⟨whole, fraction, e, hnumeral, rfl⟩ := readHexadecimal?_eq_some_iff.mp h
        exact .hexadecimal hnumeral
      · obtain ⟨htag, hsize⟩ := Option.ite_none_right_eq_some.mp h
        obtain rfl := Option.some.inj hsize
        rcases isNanTag_iff.mp htag with rfl | ⟨tag, hchars, rfl⟩
        · exact .nan
        · exact .taggedNan hchars
      · obtain ⟨d, hd, rfl⟩ := Option.map_eq_some_iff.mp h
        obtain ⟨whole, fraction, e, hnumeral, rfl⟩ := decimal_read?_eq_some_iff.mp hd
        exact .decimal hnumeral
  · intro h
    cases h with
    | inf => rfl
    | infinity => rfl
    | nan => rfl
    | taggedNan htag =>
      rw [if_neg (by simp)]
      exact if_pos (isNanTag_iff.mpr (Or.inr ⟨_, htag, rfl⟩))
    | decimal hnumeral =>
      -- a decimal numeral has none of the letters of the others
      have hother : ∀ c ∈ ['n', 'x'], c ∉ lower := by
        intro c hc hmem
        have hletter : ∀ c ∈ ['n', 'x'], ¬ (c.isDigit = true ∨ Decimal.isExponentMark c = true ∨
            c.isDigit = true ∨ c ∈ ['.', '+', '-']) := by simp [Decimal.isExponentMark]
        exact hletter c hc (hnumeral.char hmem)
      have hread := decimal_read?_eq_some_iff.mpr ⟨_, _, _, hnumeral, rfl⟩
      rw [if_neg]
      · split
        · exact absurd (by simp) (hother 'x' (by decide))
        · exact absurd (by simp) (hother 'n' (by decide))
        · rw [hread]
          rfl
      · rintro (rfl | rfl)
        · exact hother 'n' (by decide) (by decide)
        · exact hother 'n' (by decide) (by decide)
    | hexadecimal hnumeral =>
      have hread := readHexadecimal?_eq_some_iff.mpr ⟨_, _, _, hnumeral, rfl⟩
      rw [if_neg (by simp)]
      exact hread

/-! ### The characters of literals -/

theorem toNat_of_isAlphanum {c : Char} (h : c.isAlphanum = true) : 32 < c.toNat := by
  simp only [Char.isAlphanum, Char.isAlpha, Char.isUpper, Char.isLower, Char.isDigit,
    Bool.or_eq_true, Bool.and_eq_true, decide_eq_true_eq, ge_iff_le, UInt32.le_iff_toNat_le] at h
  obtain ((⟨hlow, -⟩ | ⟨hlow, -⟩) | ⟨hlow, -⟩) :
    ((65 ≤ c.toNat ∧ c.toNat ≤ 90) ∨ (97 ≤ c.toNat ∧ c.toNat ≤ 122)) ∨
      (48 ≤ c.toNat ∧ c.toNat ≤ 57) := h
  all_goals omega

theorem toNat_of_isHexDigit {c : Char} (h : isHexDigit c = true) : 32 < c.toNat := by
  by_contra hlow
  have habove (d : Char) (hd : 32 < d.toNat) : ¬ d ≤ c := by
    intro hle
    have hnat : d.toNat ≤ c.toNat := UInt32.le_iff_toNat_le.mp hle
    omega
  have hnone : Text.hexDigit? c = none := by
    simp [Text.hexDigit?, habove]
  rw [isHexDigit, hnone] at h
  cases h

theorem lt_toNat_of_toLower {c : Char} (h : 32 < c.toLower.toNat) : 32 < c.toNat := by
  by_contra hlow
  have hupper : ¬ c.isUpper = true := by
    intro hupper
    exact hlow (toNat_of_isAlphanum (by simp [Char.isAlphanum, Char.isAlpha, hupper]))
  rw [Char.toLower_eq_of_not_isUpper hupper] at h
  exact hlow h

theorem Spells.char {size : Size} (h : Spells cs size) : ∀ c ∈ cs, 32 < c.toNat := by
  have hnumeral {c : Char} (hc : c.isDigit = true ∨ c ∈ ['.', '+', '-']) : 32 < c.toNat := by
    rcases hc with hdigit | hmem
    · exact toNat_of_isAlphanum (by rw [Char.isAlphanum, hdigit, Bool.or_true])
    · revert c
      simp
  cases h with
  | inf => simp
  | infinity => simp
  | nan => simp
  | taggedNan htag =>
    have hword : ∀ c ∈ "nan(".toList, 32 < c.toNat := by simp
    intro c hc
    simp only [List.mem_append, List.mem_singleton] at hc
    rcases hc with hc | hc | rfl
    · exact hword c hc
    · rcases Bool.or_eq_true_iff.mp (htag c hc) with halnum | hline
      · exact toNat_of_isAlphanum halnum
      · rw [eq_of_beq hline]
        decide
    · decide
  | decimal h =>
    intro c hc
    rcases h.char hc with hdigit | hmark | hother
    · exact hnumeral (Or.inl hdigit)
    · rcases Bool.or_eq_true_iff.mp hmark with hmark | hmark
      all_goals
        rw [eq_of_beq hmark]
        decide
    · exact hnumeral hother
  | hexadecimal h =>
    intro c hc
    simp only [List.mem_cons] at hc
    rcases hc with rfl | rfl | hc
    · decide
    · decide
    · rcases h.char hc with hdigit | hmark | hother
      · exact toNat_of_isHexDigit hdigit
      · rw [eq_of_beq hmark]
        decide
      · exact hnumeral hother

/-- A sign is no part of what a size is spelled with. -/
theorem Spells.exists_cons {size : Size} (h : Spells cs size) :
    ∃ c rest, cs = c :: rest ∧ c ≠ '+' ∧ c ≠ '-' := by
  cases h with
  | inf | infinity | nan | taggedNan _ => exact ⟨_, _, rfl, by decide, by decide⟩
  | decimal h =>
    obtain ⟨mantissa, tail, hmantissa, -, rfl⟩ := h
    obtain ⟨c, rest, rfl⟩ := hmantissa.exists_cons
    refine ⟨c, rest ++ tail, rfl, ?_⟩
    rcases hmantissa.digit_or_point List.mem_cons_self with hdigit | rfl
    · constructor
      all_goals
        rintro rfl
        exact absurd hdigit (by decide)
    · decide
  | hexadecimal _ => exact ⟨_, _, rfl, by decide, by decide⟩

theorem readSize?_sign {c : Char} (hc : c = '+' ∨ c = '-') (rest : List Char) :
    readSize? (c :: rest) = none := by
  rw [Option.eq_none_iff_forall_ne_some]
  intro size hsize
  obtain ⟨d, tail, hcons, hplus, hminus⟩ := (readSize?_eq_some_iff.mp hsize).exists_cons
  obtain ⟨rfl, -⟩ := List.cons.inj hcons
  rcases hc with rfl | rfl
  · exact hplus (by decide)
  · exact hminus (by decide)

theorem read?_eq_some_iff {l : Literal} : read? cs = some l ↔ IsWritten cs l := by
  rw [read?, Text.readSigned?_eq_some_iff fun negative rest =>
    ⟨by rw [readSize?_sign (Or.inl rfl)]; rfl, by rw [readSize?_sign (Or.inr rfl)]; rfl⟩]
  constructor
  · rintro ⟨sign, negative, body, hsign, hcs, hread⟩
    obtain ⟨size, hsize, rfl⟩ := Option.map_eq_some_iff.mp hread
    exact ⟨sign, body, hsign, readSize?_eq_some_iff.mp hsize, hcs⟩
  · rintro ⟨sign, body, hsign, hspells, hcs⟩
    refine ⟨sign, l.negative, body, hsign, hcs, ?_⟩
    rw [readSize?_eq_some_iff.mpr hspells]
    rfl

theorem IsWritten.char {l : Literal} (h : IsWritten cs l) : ∀ c ∈ cs, 32 < c.toNat := by
  obtain ⟨sign, body, hsign, hspells, rfl⟩ := h
  intro c hc
  rcases List.mem_append.mp hc with hc | hc
  · have hsigns : ∀ s ∈ signs, ∀ c ∈ s.1, 32 < c.toNat := by simp [signs]
    exact hsigns _ hsign c hc
  · exact lt_toNat_of_toLower (hspells.char _ (List.mem_map_of_mem hc))

theorem IsWritten.ne_nil {l : Literal} (h : IsWritten cs l) : cs ≠ [] := by
  obtain ⟨sign, body, -, hspells, rfl⟩ := h
  obtain ⟨c, rest, hcons, -⟩ := hspells.exists_cons
  rintro hnil
  rw [(List.append_eq_nil_iff.mp hnil).2] at hcons
  cases hcons

end Reading

/-! ## Literals in texts -/

theorem isSpace_eq_false {c : Char} (h : 32 < c.toNat) : Text.isSpace c = false := by
  rw [Bool.eq_false_iff]
  intro hspace
  rcases Bool.or_eq_true_iff.mp hspace with hblank | hrange
  · rw [eq_of_beq hblank] at h
    exact absurd h (by decide)
  · have hle : c ≤ '\r' := of_decide_eq_true (Bool.and_eq_true_iff.mp hrange).2
    have hnat : c.toNat ≤ 13 := UInt32.le_iff_toNat_le.mp hle
    omega

theorem isSpace_of_isBlank {c : Char} (h : isBlank c = true) : Text.isSpace c = true := by
  rcases Bool.or_eq_true_iff.mp h with hc | hc
  all_goals
    rw [eq_of_beq hc]
    decide

theorem ne_nul_of_isSpace {c : Char} (h : Text.isSpace c = true) : c ≠ '\x00' := by
  rintro rfl
  exact absurd h (by decide)

theorem ofText?_eq_some_iff {text : String} {l : Literal} :
    ofText? text = some l ↔ Holds EndsLiteral text l := by
  rw [ofText?, read?_eq_some_iff]
  constructor
  · intro h
    have hnul := List.takeWhile_append_dropWhile (p := (· != '\x00')) (l := text.toList)
    generalize text.toList.takeWhile (· != '\x00') = front at h hnul
    obtain ⟨blanks, hsplit, hblanks⟩ :=
      Text.exists_trimEnd_append isBlank (front.dropWhile Text.isSpace)
    refine ⟨front.takeWhile Text.isSpace, _, blanks, text.toList.dropWhile (· != '\x00'),
      fun c hc => List.mem_takeWhile_imp hc, h, hblanks, fun c hc => ?_, ?_⟩
    · have hstop := Text.head_dropWhile hc
      exact bne_eq_false_iff_eq.mp hstop
    · rw [List.append_assoc (front.takeWhile Text.isSpace), ← hsplit,
        List.takeWhile_append_dropWhile, hnul]
  · rintro ⟨space, written, blanks, rest, hspace, hwritten, hblanks, hrest, htext⟩
    have hchar := hwritten.char
    have hfront : ∀ c ∈ space ++ written ++ blanks, (c != '\x00') = true := by
      intro c hc
      rw [bne_iff_ne]
      simp only [List.mem_append] at hc
      rcases hc with (hc | hc) | hc
      · exact ne_nul_of_isSpace (hspace c hc)
      · rintro rfl
        exact absurd (hchar _ hc) (by decide)
      · exact ne_nul_of_isSpace (isSpace_of_isBlank (hblanks c hc))
    have htake : text.toList.takeWhile (· != '\x00') = space ++ written ++ blanks := by
      rw [htext, List.takeWhile_append_of_pos hfront]
      cases rest with
      | nil => exact List.append_nil _
      | cons c tail =>
        rw [hrest c rfl, List.takeWhile_cons_of_neg (by decide), List.append_nil]
    have hdrop : (space ++ written ++ blanks).dropWhile Text.isSpace = written ++ blanks := by
      obtain ⟨c, others, rfl⟩ := List.exists_cons_of_ne_nil hwritten.ne_nil
      have hc := isSpace_eq_false (hchar c List.mem_cons_self)
      rw [List.append_assoc, List.dropWhile_append_of_pos hspace, List.cons_append,
        List.dropWhile_cons_of_neg (by rw [hc]; decide)]
    have hlast : ∀ c, written.getLast? = some c → isBlank c = false := by
      intro c hc
      have hplain := isSpace_eq_false (hchar c (List.mem_of_getLast? hc))
      rw [Bool.eq_false_iff] at hplain ⊢
      exact fun hblank => hplain (isSpace_of_isBlank hblank)
    rw [htake, hdrop, Text.trimEnd_append hblanks hlast]
    exact hwritten

end Underwriting.Literal
