import Underwriting.Proofs.Json.Strict

/-! # The limit on nesting

A text is refused for its nesting before the library reads it, by what the scan counts on it.
For a text that follows the grammar that is its depth, so of these texts only the ones that are
too deep are refused in this way, and all of them are.
-/
namespace Underwriting.Json

/-- On a JSON text the scan counts the depth by the grammar. So the text is refused for its
nesting exactly when it nests deeper than 32 levels, and the value that a library gives for it
otherwise nests no deeper than that. -/
theorem nesting_agrees_with_grammar {text : String} {depth : Nat}
    (htext : Syntax.IsText text.toList depth) :
    nestingDepth text.toList = depth ∧
      ∀ json : Library,
        (json.parse text = .error .nestedTooDeep ↔ 32 < depth) ∧
          (json.KeepsNesting → ∀ v, json.parse text = .ok v → v.depth ≤ depth ∧ v.depth ≤ 32) := by
  have hdepth := htext.nestingDepth_eq
  refine ⟨hdepth, fun json => ⟨?_, fun hkeeps v hparse => ?_⟩⟩
  · rw [Library.parse_eq_nestedTooDeep_iff, hdepth]
    exact Int.ofNat_lt
  · obtain ⟨hvalue, hlimit⟩ := (hkeeps.covered htext).depth_le_of_parse hparse
    rw [hdepth] at hvalue
    exact ⟨Int.ofNat_le.mp hvalue, hlimit⟩

/-- A text with brackets in its strings, behind an escaped backslash and an escaped quote. -/
def escapedBrackets : String := "[\"[\\\\\", \x7b\"\\\"]\": []\x7d]"

theorem isText_escapedBrackets : Syntax.IsText escapedBrackets.toList 3 := by
  have hnone : Syntax.Blanks [] := by simp [Syntax.Blanks]
  have hspace : Syntax.Blanks [' '] := by simp [Syntax.Blanks, isBlank]
  have hfirst : Syntax.Derives .value 0 "\"[\\\\\"".toList :=
    .string (.plain (c := '[') (by decide) (by decide) (by decide) (.escape (by decide) .nil))
  have hkey : Syntax.Chars ['\\', '"', ']'] :=
    .escape (by decide) (.plain (by decide) (by decide) (by decide) .nil)
  have hempty : Syntax.Derives .value 1 ['[', ']'] := .empty .array hnone
  have hobject : Syntax.Derives .value 2 "\x7b\"\\\"]\": []\x7d".toList :=
    .enclosed .object hnone (.member hkey hnone hspace hempty) hnone
  have harray : Syntax.Derives .value 3 escapedBrackets.toList :=
    .enclosed .array hnone (.sequence (by simp) (.item hfirst) hnone hspace (.item hobject))
      hnone
  exact ⟨[], _, [], hnone, harray, hnone, by simp⟩

theorem nestingDepth_escapedBrackets :
    Syntax.IsText escapedBrackets.toList 3 ∧ nestingDepth escapedBrackets.toList = 3 ∧
      strict.parse escapedBrackets ≠ .error .nestedTooDeep ∧ strict.KeepsNesting ∧
      ∃ v, strict.parse escapedBrackets = .ok v ∧ v.depth ≤ 3 := by
  have htext := isText_escapedBrackets
  obtain ⟨hdepth, hlibrary⟩ := nesting_agrees_with_grammar htext
  obtain ⟨hrefused, hvalue⟩ := hlibrary strict
  have haccepted : (strict.parse escapedBrackets).toOption.isSome = true := by decide +kernel
  refine ⟨htext, hdepth, fun h => absurd (hrefused.mp h) (by decide), strict_keepsNesting, ?_⟩
  cases hparse : strict.parse escapedBrackets with
  | error e =>
    rw [hparse] at haccepted
    cases haccepted
  | ok v => exact ⟨v, rfl, (hvalue strict_keepsNesting v hparse).1⟩

end Underwriting.Json
