import Mathlib.Data.List.DropRight
import Mathlib.Data.List.Infix
import Underwriting.Text

/-! # Parts of texts

A text that occurs in another is an infix of it, and a text is trimmed by splitting off what
is blank at its ends. A sign is split off at the front.
-/
namespace Underwriting.Text

theorem occursIn_eq_true_iff {part text : List Char} :
    occursIn part text = true ↔ part <:+: text := by
  induction text with
  | nil => rw [occursIn, List.isEmpty_iff, List.infix_nil]
  | cons c rest ih =>
    rw [occursIn, Bool.or_eq_true, List.isPrefixOf_iff_prefix, ih, List.infix_cons_iff]

/-- The signs that may stand in front of a number, and whether they make it negative. -/
def signs : List (List Char × Bool) := [([], false), (['+'], false), (['-'], true)]

/-- What is read behind a sign, when nothing is read that begins with one. -/
theorem readSigned?_eq_some_iff {α : Type} {read? : Bool → List Char → Option α} {cs : List Char}
    {a : α} (hsign : ∀ negative rest, read? negative ('+' :: rest) = none ∧
      read? negative ('-' :: rest) = none) :
    readSigned? read? cs = some a ↔
      ∃ sign negative rest, (sign, negative) ∈ signs ∧ cs = sign ++ rest ∧
        read? negative rest = some a := by
  constructor
  · intro h
    unfold readSigned? at h
    split at h
    · exact ⟨['-'], true, _, by decide, rfl, h⟩
    · exact ⟨['+'], false, _, by decide, rfl, h⟩
    · exact ⟨[], false, _, by decide, rfl, h⟩
  · rintro ⟨sign, negative, rest, hmem, rfl, hread⟩
    simp only [signs, List.mem_cons, Prod.mk.injEq, List.not_mem_nil, or_false] at hmem
    rcases hmem with ⟨rfl, rfl⟩ | ⟨rfl, rfl⟩ | ⟨rfl, rfl⟩
    · -- without a sign in front, the text does not begin with one
      rw [List.nil_append, readSigned?.eq_3, hread]
      · rintro tail rfl
        rw [(hsign false tail).2] at hread
        cases hread
      · rintro tail rfl
        rw [(hsign false tail).1] at hread
        cases hread
    · exact hread
    · exact hread

section Trimming
variable {isBlank : Char → Bool} {cs : List Char}

theorem trimEnd_append {words after : List Char} (hafter : ∀ c ∈ after, isBlank c = true)
    (hlast : ∀ c, words.getLast? = some c → isBlank c = false) :
    trimEnd isBlank (words ++ after) = words := by
  rw [trimEnd, List.reverse_append,
    List.dropWhile_append_of_pos fun c hc => hafter c (List.mem_reverse.mp hc)]
  cases hwords : words.reverse with
  | nil => rw [List.reverse_eq_nil_iff.mp hwords]; rfl
  | cons c others =>
    have hc : words.getLast? = some c := by
      rw [← List.head?_reverse, hwords, List.head?_cons]
    rw [List.dropWhile_cons_of_neg (Bool.eq_false_iff.mp (hlast c hc)), ← hwords,
      List.reverse_reverse]

theorem exists_trimEnd_append (isBlank : Char → Bool) (cs : List Char) :
    ∃ after, cs = trimEnd isBlank cs ++ after ∧ ∀ c ∈ after, isBlank c = true := by
  refine ⟨cs.rtakeWhile isBlank, List.rdropWhile_append_rtakeWhile.symm, fun c hc => ?_⟩
  exact List.mem_rtakeWhile_imp hc

theorem last_trimEnd {c : Char} (h : (trimEnd isBlank cs).getLast? = some c) :
    isBlank c = false := by
  have hne : cs.rdropWhile isBlank ≠ [] := by
    intro hnil
    rw [show trimEnd isBlank cs = [] from hnil] at h
    cases h
  have hlast := List.rdropWhile_last_not isBlank cs hne
  rw [← Option.some.inj ((List.getLast?_eq_some_getLast hne).symm.trans h)]
  exact Bool.eq_false_iff.mpr hlast

theorem head_dropWhile {c : Char} (h : (cs.dropWhile isBlank).head? = some c) :
    isBlank c = false := by
  have hhead := List.head?_dropWhile_not isBlank cs
  rw [h] at hhead
  exact hhead

/-- The words of a text, without the blanks before and after them. -/
structure Trimmed (isBlank : Char → Bool) (cs words : List Char) : Prop where
  split : ∃ before after, cs = before ++ words ++ after ∧
    (∀ c ∈ before, isBlank c = true) ∧ ∀ c ∈ after, isBlank c = true
  first : ∀ c, words.head? = some c → isBlank c = false
  last : ∀ c, words.getLast? = some c → isBlank c = false

theorem trimmed_trim (isBlank : Char → Bool) (cs : List Char) :
    Trimmed isBlank cs (trim isBlank cs) := by
  obtain ⟨after, hsplit, hafter⟩ := exists_trimEnd_append isBlank (cs.dropWhile isBlank)
  refine ⟨⟨cs.takeWhile isBlank, after, ?_, fun c hc => List.mem_takeWhile_imp hc, hafter⟩,
    fun c hc => ?_, fun c hc => last_trimEnd hc⟩
  · rw [List.append_assoc, trim, ← hsplit, List.takeWhile_append_dropWhile]
  · obtain ⟨rest, hrest⟩ := List.head?_eq_some_iff.mp hc
    have hhead : (cs.dropWhile isBlank).head? = some c := by
      rw [hsplit, show trimEnd isBlank (cs.dropWhile isBlank) = c :: rest from hrest]
      rfl
    exact head_dropWhile hhead

end Trimming
end Underwriting.Text
