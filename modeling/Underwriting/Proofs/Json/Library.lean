import Underwriting.Json.Library
import Underwriting.Proofs.Json.Syntax
import Underwriting.Proofs.Rule.Readers
import Underwriting.Proofs.Value.Layers
import Underwriting.Proofs.Value.Order

/-! # What is asked of a library for JSON texts

Each law is a property of its own, so that a result names the laws that it rests on. How
texts are laid out and which texts are refused is left to the library.
-/
namespace Underwriting.Json.Library

/-- What is read can be written: only values that have a text are read, and all of those
are written. -/
structure Closed (json : Library) : Prop where
  printable : ∀ {text : String} {v : Value}, json.read text = .ok v → v.Printable
  writes : ∀ (layout : Layout) {v : Value}, v.Printable →
    ∃ text, json.write layout v = .ok text

/-- What is written nests as deep as the value and is read again. The order in which the
members of an object are written and read is the library's own. -/
structure Lawful (json : Library) : Prop extends Closed json where
  depth : ∀ {layout : Layout} {v : Value} {text : String}, v.Printable →
    json.write layout v = .ok text → nestingDepth text.toList = v.depth
  reads : ∀ {layout : Layout} {v : Value} {text : String}, v.Printable →
    json.write layout v = .ok text → ∃ w, json.read text = .ok w ∧ v.Same w

/-- The members of objects are written and read in the order in which they stand. -/
def KeepsOrder (json : Library) : Prop :=
  ∀ {layout : Layout} {v : Value} {text : String}, v.Printable →
    json.write layout v = .ok text → json.read text = .ok v

/-- Of a text that follows the grammar, the value nests no deeper than the text. Nothing is
said of texts that a library accepts beyond the grammar. -/
def KeepsNesting (json : Library) : Prop :=
  ∀ {text : String} {depth : Nat} {v : Value}, Syntax.IsText text.toList depth →
    json.read text = .ok v → v.depth ≤ depth

/-- The scan of a text counts at least the levels of the value that is read from it. -/
def Covered (json : Library) (text : String) : Prop :=
  ∀ v, json.read text = .ok v → (v.depth : Int) ≤ nestingDepth text.toList

variable {json : Library} {layout : Layout} {text : String} {v : Value}

/-! ## Reading and writing within the limit -/

theorem parse_eq_ok_iff :
    json.parse text = .ok v ↔
      nestingDepth text.toList ≤ maxNesting ∧ json.read text = .ok v := by
  rw [parse]
  split
  · rename_i hdeep
    exact iff_of_false nofun fun h => absurd h.1 (not_le.mpr hdeep)
  · rename_i hdeep
    rw [except_mapError_eq_ok]
    exact ⟨fun h => ⟨not_lt.mp hdeep, h⟩, And.right⟩

theorem parse_eq_nestedTooDeep_iff :
    json.parse text = .error .nestedTooDeep ↔ maxNesting < nestingDepth text.toList := by
  rw [parse]
  split
  · rename_i hdeep
    exact iff_of_true rfl hdeep
  · rename_i hdeep
    refine iff_of_false ?_ hdeep
    cases json.read text <;> simp [Except.mapError]

theorem print_eq_ok_iff : json.print layout v = .ok text ↔ json.write layout v = .ok text :=
  except_mapError_eq_ok

theorem Closed.printable_of_parse (hjson : json.Closed) (h : json.parse text = .ok v) :
    v.Printable :=
  hjson.printable (parse_eq_ok_iff.mp h).2

theorem Closed.exists_print (hjson : json.Closed) (layout : Layout) (hv : v.Printable) :
    ∃ text, json.print layout v = .ok text := by
  obtain ⟨text, hwrite⟩ := hjson.writes layout hv
  exact ⟨text, print_eq_ok_iff.mpr hwrite⟩

namespace Lawful
variable (hjson : json.Lawful)
include hjson

theorem nestingDepth_eq (hv : v.Printable) (h : json.print layout v = .ok text) :
    nestingDepth text.toList = v.depth :=
  hjson.depth hv (print_eq_ok_iff.mp h)

theorem exists_parse_iff (hv : v.Printable) (h : json.print layout v = .ok text) :
    (∃ w, json.parse text = .ok w) ↔ v.depth ≤ maxNesting := by
  constructor
  · rintro ⟨w, hparse⟩
    have hdepth := (parse_eq_ok_iff.mp hparse).1
    rw [hjson.nestingDepth_eq hv h] at hdepth
    exact Int.ofNat_le.mp hdepth
  · intro hdepth
    obtain ⟨w, hread, -⟩ := hjson.reads hv (print_eq_ok_iff.mp h)
    refine ⟨w, parse_eq_ok_iff.mpr ⟨?_, hread⟩⟩
    rw [hjson.nestingDepth_eq hv h]
    exact Int.ofNat_le.mpr hdepth

theorem same_of_parse (hv : v.Printable) (h : json.print layout v = .ok text) {w : Value}
    (hparse : json.parse text = .ok w) : v.Same w := by
  obtain ⟨w', hread, hsame⟩ := hjson.reads hv (print_eq_ok_iff.mp h)
  obtain rfl := Except.ok.inj (hread.symm.trans (parse_eq_ok_iff.mp hparse).2)
  exact hsame

end Lawful

theorem KeepsOrder.eq_of_parse (horder : json.KeepsOrder) (hv : v.Printable)
    (h : json.print layout v = .ok text) {w : Value} (hparse : json.parse text = .ok w) :
    w = v := by
  have hread := horder hv (print_eq_ok_iff.mp h)
  exact Except.ok.inj ((parse_eq_ok_iff.mp hparse).2.symm.trans hread)

theorem KeepsNesting.covered (hkeeps : json.KeepsNesting) {depth : Nat}
    (htext : Syntax.IsText text.toList depth) : json.Covered text := by
  intro v hread
  rw [htext.nestingDepth_eq]
  exact Int.ofNat_le.mpr (hkeeps htext hread)

theorem Covered.depth_le_of_parse (hcovered : json.Covered text) (h : json.parse text = .ok v) :
    (v.depth : Int) ≤ nestingDepth text.toList ∧ v.depth ≤ maxNesting := by
  obtain ⟨hlimit, hread⟩ := parse_eq_ok_iff.mp h
  have hdepth := hcovered v hread
  exact ⟨hdepth, Int.ofNat_le.mp (hdepth.trans hlimit)⟩

end Underwriting.Json.Library
