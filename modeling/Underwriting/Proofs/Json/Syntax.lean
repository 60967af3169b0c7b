import Mathlib.Data.List.Basic
import Underwriting.Json.Nesting
import Underwriting.Json.Parser

/-! # The grammar of JSON texts

What may stand in a JSON text, production by production, together with the deepest nesting of
its arrays and objects. Numbers of any size, escaped halves of characters and repeated keys
are all within the grammar; what they stand for is not its concern. The scan that counts
brackets knows nothing of the grammar, but agrees with it on every text.
-/
namespace Underwriting.Json.Syntax

def Blanks (t : List Char) : Prop := ∀ c ∈ t, isBlank c = true

def Digits (t : List Char) : Prop := t ≠ [] ∧ ∀ c ∈ t, c.isDigit = true

/-- Digits without a leading zero, unless zero is all there is. -/
def Whole (t : List Char) : Prop := Digits t ∧ (t.head? = some '0' → t = ['0'])

def Fraction (t : List Char) : Prop := t = [] ∨ ∃ ds, Digits ds ∧ t = '.' :: ds

def Exponent (t : List Char) : Prop :=
  t = [] ∨ ∃ mark ∈ ['e', 'E'], ∃ sign ∈ [[], ['+'], ['-']], ∃ ds, Digits ds ∧
    t = mark :: (sign ++ ds)

def Number (t : List Char) : Prop :=
  ∃ sign ∈ [[], ['-']], ∃ whole fraction exponent, Whole whole ∧ Fraction fraction ∧
    Exponent exponent ∧ t = sign ++ (whole ++ (fraction ++ exponent))

/-- What may stand between the quotes of a string. -/
inductive Chars : List Char → Prop where
  | nil : Chars []
  | plain {c : Char} {t : List Char} :
    ¬ c < ' ' → c ≠ '"' → c ≠ '\\' → Chars t → Chars (c :: t)
  | escape {c : Char} {t : List Char} :
    c ∈ ['"', '\\', '/', 'b', 'f', 'n', 'r', 't'] → Chars t → Chars ('\\' :: c :: t)
  | unit {ds t : List Char} :
    ds.length = 4 → (∀ c ∈ ds, (Text.hexDigit? c).isSome = true) → Chars t →
      Chars ('\\' :: 'u' :: (ds ++ t))

/-- The parts of a text that nest: a value, the items of an array or the members of an
object. -/
inductive Part where
  | value
  | items
  | members

/-- The brackets of arrays and objects, and what stands between them. -/
inductive Encloses : Char → Part → Char → Prop where
  | array : Encloses '[' .items ']'
  | object : Encloses '\x7b' .members '\x7d'

/-- A text that is such a part, with brackets nested so deep in it. -/
inductive Derives : Part → Nat → List Char → Prop where
  | word {t : List Char} :
    t ∈ ["false".toList, "null".toList, "true".toList] → Derives .value 0 t
  | number {t : List Char} : Number t → Derives .value 0 t
  | string {t : List Char} : Chars t → Derives .value 0 ('"' :: (t ++ ['"']))
  | empty {p : Part} {opening closing : Char} {b : List Char} :
    Encloses opening p closing → Blanks b → Derives .value 1 (opening :: (b ++ [closing]))
  | enclosed {p : Part} {opening closing : Char} {n : Nat} {a t b : List Char} :
    Encloses opening p closing → Blanks a → Derives p n t → Blanks b →
      Derives .value (n + 1) (opening :: (a ++ (t ++ (b ++ [closing]))))
  | item {n : Nat} {t : List Char} : Derives .value n t → Derives .items n t
  | member {n : Nat} {key a b t : List Char} :
    Chars key → Blanks a → Blanks b → Derives .value n t →
      Derives .members n ('"' :: (key ++ '"' :: (a ++ ':' :: (b ++ t))))
  | sequence {p : Part} {n m : Nat} {t a b u : List Char} :
    p ≠ .value → Derives p n t → Blanks a → Blanks b → Derives p m u →
      Derives p (max n m) (t ++ (a ++ ',' :: (b ++ u)))

/-- A JSON text: a value with blanks around it. -/
def IsText (t : List Char) (depth : Nat) : Prop :=
  ∃ a u b, Blanks a ∧ Derives .value depth u ∧ Blanks b ∧ t = a ++ (u ++ b)

/-! ## Scanning -/

def outside (level deepest : Int) : Scan := ⟨false, false, level, deepest⟩

/-- A scan inside a string, with nothing escaped. -/
def inside (level deepest : Int) : Scan := ⟨true, false, level, deepest⟩

/-- The characters that change the state of a scan outside strings. -/
def marks : List Char := ['"', '\x7b', '[', '\x7d', ']']

theorem notMem_marks {isKind : Char → Bool} (h : ∀ m ∈ marks, isKind m = false) {c : Char}
    (hc : isKind c = true) : c ∉ marks := by
  intro hmark
  rw [h c hmark] at hc
  cases hc

theorem scan_unmarked {t : List Char} (h : ∀ c ∈ t, c ∉ marks) (level deepest : Int) :
    t.foldl Scan.step (outside level deepest) = outside level deepest := by
  induction t with
  | nil => rfl
  | cons c t ih =>
    rw [List.forall_mem_cons] at h
    obtain ⟨hc, ht⟩ := h
    simp only [marks, List.mem_cons, List.not_mem_nil, or_false, not_or] at hc
    obtain ⟨hquote, hbrace, hbracket, hclose, hclosing⟩ := hc
    have hstep : Scan.step (outside level deepest) c = outside level deepest := by
      simp [Scan.step, outside, hquote, hbrace, hbracket, hclose, hclosing]
    rw [List.foldl_cons, hstep, ih ht]

theorem Digits.isNumberChar {t : List Char} (h : Digits t) : ∀ c ∈ t, isNumberChar c = true := by
  intro c hc
  simp [Json.isNumberChar, h.2 c hc]

theorem Number.isNumberChar {t : List Char} (h : Number t) : ∀ c ∈ t, isNumberChar c = true := by
  have hsigns : ∀ sign ∈ [[], ['+'], ['-']], ∀ c ∈ sign, Json.isNumberChar c = true := by
    simp [Json.isNumberChar]
  have hsubset : [[], ['-']] ⊆ [[], ['+'], ['-']] := by decide
  obtain ⟨sign, hsign, whole, fraction, exponent, hwhole, hfraction, hexponent, rfl⟩ := h
  simp only [List.forall_mem_append]
  refine ⟨hsigns sign (hsubset hsign), hwhole.1.isNumberChar, ?_, ?_⟩
  · rcases hfraction with rfl | ⟨ds, hds, rfl⟩
    · exact List.forall_mem_nil _
    · exact List.forall_mem_cons.mpr ⟨rfl, hds.isNumberChar⟩
  · rcases hexponent with rfl | ⟨mark, hmark, sign, hsign, ds, hds, rfl⟩
    · exact List.forall_mem_nil _
    · have hmarks : ∀ c ∈ ['e', 'E'], Json.isNumberChar c = true := by simp [Json.isNumberChar]
      rw [List.forall_mem_cons, List.forall_mem_append]
      exact ⟨hmarks mark hmark, hsigns sign hsign, hds.isNumberChar⟩

section Scanning
variable {t : List Char} (level deepest : Int)

theorem Blanks.scan (h : Blanks t) :
    t.foldl Scan.step (outside level deepest) = outside level deepest :=
  scan_unmarked (fun c hc => notMem_marks (by simp [marks, isBlank]) (h c hc)) level deepest

theorem Number.scan (h : Number t) :
    t.foldl Scan.step (outside level deepest) = outside level deepest :=
  scan_unmarked (fun c hc => notMem_marks (by simp [marks, Json.isNumberChar])
    (h.isNumberChar c hc)) level deepest

theorem step_inString {c : Char} (hquote : c ≠ '"') (hslash : c ≠ '\\') :
    Scan.step (inside level deepest) c = inside level deepest := by
  simp [Scan.step, inside, hquote, hslash]

theorem scan_hexDigits (h : ∀ c ∈ t, (Text.hexDigit? c).isSome = true) :
    t.foldl Scan.step (inside level deepest) = inside level deepest := by
  induction t with
  | nil => rfl
  | cons c t ih =>
    rw [List.forall_mem_cons] at h
    have hne (d : Char) (hd : Text.hexDigit? d = none) : c ≠ d := by
      rintro rfl
      simp [hd] at h
    rw [List.foldl_cons, step_inString level deepest (hne '"' (by decide)) (hne '\\' (by decide)),
      ih h.2]

theorem Chars.scan (h : Chars t) :
    t.foldl Scan.step (inside level deepest) = inside level deepest := by
  induction h with
  | nil => rfl
  | plain _ hquote hslash _ ih =>
    rw [List.foldl_cons, step_inString level deepest hquote hslash, ih]
  | escape _ _ ih => exact ih
  | unit _ hdigits _ ih =>
    have hescape : Scan.step (Scan.step (inside level deepest) '\\') 'u' =
        inside level deepest := rfl
    rw [List.foldl_cons, List.foldl_cons, hescape, List.foldl_append,
      scan_hexDigits level deepest hdigits, ih]

theorem step_openQuote : Scan.step (outside level deepest) '"' =
    inside level deepest := rfl

theorem step_closeQuote : Scan.step (inside level deepest) '"' =
    outside level deepest := rfl

theorem step_comma : Scan.step (outside level deepest) ',' =
    outside level deepest := rfl

theorem step_colon : Scan.step (outside level deepest) ':' =
    outside level deepest := rfl

theorem Encloses.step_opening {p : Part} {opening closing : Char}
    (h : Encloses opening p closing) :
    Scan.step (outside level deepest) opening =
      outside (level + 1) (max deepest (level + 1)) := by
  cases h <;> rfl

theorem Encloses.step_closing {p : Part} {opening closing : Char}
    (h : Encloses opening p closing) :
    Scan.step (outside level deepest) closing = outside (level - 1) deepest := by
  cases h <;> rfl

end Scanning

/-- Over a part of a text, the scan comes back to its level and has been as deep as the part
nests. -/
theorem Derives.scan {p : Part} {n : Nat} {t : List Char} (h : Derives p n t)
    {level deepest : Int} (hle : level ≤ deepest) :
    t.foldl Scan.step (outside level deepest) =
      outside level (max deepest (level + n)) := by
  -- the scan has been at least as deep as it is: without that, a value without brackets
  -- would not leave the maximum as it was
  induction h generalizing level deepest with
  | word hword =>
    have hunmarked : ∀ t ∈ ["false".toList, "null".toList, "true".toList], ∀ c ∈ t, c ∉ marks := by
      simp [marks]
    rw [scan_unmarked (hunmarked _ hword)]
    exact congrArg (outside level) (by omega)
  | number hnumber =>
    rw [hnumber.scan]
    exact congrArg (outside level) (by omega)
  | string hchars =>
    rw [List.foldl_cons, step_openQuote, List.foldl_append, hchars.scan, List.foldl_cons,
      step_closeQuote, List.foldl_nil]
    exact congrArg (outside level) (by omega)
  | empty hbrackets hb =>
    rw [List.foldl_cons, hbrackets.step_opening, List.foldl_append, hb.scan, List.foldl_cons,
      hbrackets.step_closing, List.foldl_nil]
    exact congrArg₂ outside (by omega) (by omega)
  | enclosed hbrackets ha _ hb ih =>
    rw [List.foldl_cons, hbrackets.step_opening, List.foldl_append, ha.scan, List.foldl_append,
      ih (by omega), List.foldl_append, hb.scan, List.foldl_cons, hbrackets.step_closing,
      List.foldl_nil]
    exact congrArg₂ outside (by omega) (by omega)
  | item _ ih => exact ih hle
  | member hkey ha hb _ ih =>
    rw [List.foldl_cons, step_openQuote, List.foldl_append, hkey.scan, List.foldl_cons,
      step_closeQuote, List.foldl_append, ha.scan, List.foldl_cons, step_colon,
      List.foldl_append, hb.scan, ih hle]
  | sequence _ _ ha hb _ ih ihothers =>
    rw [List.foldl_append, ih hle, List.foldl_append, ha.scan, List.foldl_cons, step_comma,
      List.foldl_append, hb.scan, ihothers (by omega)]
    exact congrArg (outside level) (by omega)

theorem IsText.nestingDepth_eq {t : List Char} {depth : Nat} (h : IsText t depth) :
    nestingDepth t = depth := by
  obtain ⟨a, u, b, ha, hu, hb, rfl⟩ := h
  have hstart : Scan.start = outside 0 0 := rfl
  rw [nestingDepth, hstart, List.foldl_append, List.foldl_append, ha.scan,
    hu.scan (Int.le_refl 0), hb.scan]
  show max (0 : Int) (0 + depth) = depth
  omega

end Underwriting.Json.Syntax
