import Underwriting.Comparison
import Underwriting.Proofs.Literal.Syntax
import Underwriting.Proofs.Literal.Value

/-! # Text bounds of range conditions

A text is a bound only if it holds a numeric literal and nothing else but space before it and
blanks after it; then it says the same as the number that the literal denotes. A text ends at its
first NUL character, whatever follows that.
-/
namespace Underwriting
open Literal (Holds EndsLiteral InRange)

namespace Comparison
variable {s : String} {x : Float}

/-- One value may take the place of another as a bound of a range condition, whatever number is
compared, and whatever the other bound is. -/
def Replaceable (bound replacement : Value) : Prop :=
  ∀ actual other,
    Operator.between.compare actual (some (.list [bound, other])) =
        Operator.between.compare actual (some (.list [replacement, other])) ∧
      Operator.between.compare actual (some (.list [other, bound])) =
        Operator.between.compare actual (some (.list [other, replacement]))

theorem replaceable_of_bound? {bound replacement : Value} (h : bound? bound = bound? replacement) :
    Replaceable bound replacement := by
  intro actual other
  rcases actual with _ | v
  · exact ⟨rfl, rfl⟩
  · cases v with
    | number x => simp only [Operator.compare, isWithin, h, and_self]
    | _ => exact ⟨rfl, rfl⟩

theorem exists_bound?_of_isWithin {actual : Option Value} {low high : Value}
    (h : isWithin actual (some (.list [low, high])) = true) :
    (∃ x, bound? low = some x) ∧ ∃ x, bound? high = some x := by
  unfold isWithin at h
  split at h
  · rename_i hlist
    cases hlist
    split at h
    · rename_i l u hlow hhigh
      exact ⟨⟨l, hlow⟩, u, hhigh⟩
    · cases h
  · cases h

/-- A text that is a bound holds one literal, which denotes one number. -/
theorem holds_of_bound? (h : bound? (.string s) = some x) :
    ∃ l, (∀ l', Holds EndsLiteral s l' ↔ l' = l) ∧ ∀ y, l.Denotes y ↔ y = x := by
  obtain ⟨l, hread, hvalue⟩ := Option.bind_eq_some_iff.mp h
  have hdenotes := Literal.denotes_of_toFloat? hvalue
  refine ⟨l, fun l' => ?_, fun y => ⟨fun hy => hy.unique hdenotes, ?_⟩⟩
  · rw [← Literal.ofText?_eq_some_iff, hread, Option.some.injEq, eq_comm]
  · rintro rfl
    exact hdenotes

theorem bound?_of_holds {l : Literal} (hl : Holds EndsLiteral s l) (hx : l.Denotes x)
    (h : ∀ q, l.size.value? = some q → InRange q) : bound? (.string s) = some x := by
  rw [bound?, Literal.ofText?_eq_some_iff.mpr hl, Option.bind_some,
    Literal.toFloat?_of_denotes hx h]

/-- A range condition with a text bound holds only if there is one literal in the text, which
denotes one number, and this number may take the place of the text. So it is with every literal
whose value is in range. -/
theorem between_text_bound (s : String) :
    (∀ actual other,
      Operator.between.compare actual (some (.list [.string s, other])) = true ∨
          Operator.between.compare actual (some (.list [other, .string s])) = true →
        ∃ l x, (∀ l', Holds EndsLiteral s l' ↔ l' = l) ∧ (∀ y, l.Denotes y ↔ y = x) ∧
          Replaceable (.string s) (.number x)) ∧
    ∀ l x, Holds EndsLiteral s l → l.Denotes x → (∀ q, l.size.value? = some q → InRange q) →
      Replaceable (.string s) (.number x) := by
  constructor
  · intro actual other h
    obtain ⟨x, hx⟩ : ∃ x, bound? (.string s) = some x := by
      rcases h with h | h
      · exact (exists_bound?_of_isWithin h).1
      · exact (exists_bound?_of_isWithin h).2
    obtain ⟨l, hl, hdenotes⟩ := holds_of_bound? hx
    exact ⟨l, x, hl, hdenotes, replaceable_of_bound? hx⟩
  · intro l x hl hx hrange
    exact replaceable_of_bound? (bound?_of_holds hl hx hrange)

/-- A bound with space before its literal and a tab after it, below a number. -/
theorem between_spaced_text :
    Operator.between.compare (some (.number (Binary64.ofInt 30)))
        (some (.list [.string " 2.5e1\t", .number (Binary64.ofInt 40)])) = true ∧
      (∀ l, Holds EndsLiteral " 2.5e1\t" l ↔ l = ⟨false, .decimal ⟨25, 0⟩⟩) ∧
      Replaceable (.string " 2.5e1\t") (.number (Binary64.ofInt 25)) := by
  have hwithin : Operator.between.compare (some (.number (Binary64.ofInt 30)))
      (some (.list [.string " 2.5e1\t", .number (Binary64.ofInt 40)])) = true := by
    decide +kernel
  have hread : Literal.ofText? " 2.5e1\t" = some ⟨false, .decimal ⟨25, 0⟩⟩ := by
    decide +kernel
  have hvalue : Literal.toFloat? ⟨false, .decimal ⟨25, 0⟩⟩ = some (Binary64.ofInt 25) := by
    decide +kernel
  have hheld := Literal.ofText?_eq_some_iff.mp hread
  obtain ⟨hbound, hreplaceable⟩ := between_text_bound " 2.5e1\t"
  obtain ⟨l, x, hl, -⟩ := hbound _ _ (Or.inl hwithin)
  obtain rfl := (hl _).mp hheld
  refine ⟨hwithin, hl, hreplaceable _ _ hheld (Literal.denotes_of_toFloat? hvalue) fun q hq => ?_⟩
  obtain rfl := Option.some.inj hq
  exact Literal.inRange_of_le (by norm_num) (by norm_num)

/-! ## Texts with something after the literal -/

theorem no_nul_of_holds {l : Literal} (h : Holds (· = []) s l) : '\x00' ∉ s.toList := by
  obtain ⟨space, written, blanks, rest, hspace, hwritten, hblanks, rfl, htext⟩ := h
  rw [htext, List.append_nil]
  simp only [List.mem_append, not_or]
  refine ⟨⟨fun hmem => ?_, fun hmem => ?_⟩, fun hmem => ?_⟩
  · exact Literal.ne_nul_of_isSpace (hspace _ hmem) rfl
  · exact absurd (hwritten.char _ hmem) (by decide)
  · exact Literal.ne_nul_of_isSpace (Literal.isSpace_of_isBlank (hblanks _ hmem)) rfl

/-- A literal that ends at a NUL character is a bound, though the text goes on behind it. -/
theorem between_text_after_nul :
    ¬ ∀ (s : String) (actual other : Value),
      Operator.between.compare (some actual) (some (.list [.string s, other])) = true →
        ∃ l, Holds (· = []) s l := by
  intro h
  have hwithin : Operator.between.compare (some (.number (Binary64.ofInt 5)))
      (some (.list [.string "1\x00x", .number (Binary64.ofInt 10)])) = true := by
    decide +kernel
  obtain ⟨l, hl⟩ := h _ _ _ hwithin
  exact no_nul_of_holds hl (by decide)

end Comparison
end Underwriting
