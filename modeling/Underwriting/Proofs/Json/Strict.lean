import Underwriting.Proofs.Json.Depth
import Underwriting.Proofs.Json.Library
import Underwriting.Proofs.Json.RoundTrip

/-! # The strict library keeps the laws

Whatever it reads follows the grammar, can be written again and nests no deeper than the
text; whatever it writes is read as the value that was written.
-/
namespace Underwriting.Json

/-- The values in a phrase have JSON texts within these levels. -/
def Phrase.PrintableWithin (levels : Nat) : Phrase → Prop
  | .value v => v.PrintableWithin levels
  | .items vs => ∀ v ∈ vs, v.PrintableWithin levels
  | .members ms => ∀ e ∈ ms, e.2.PrintableWithin levels

/-- Whatever a text begins with can be written again, and nests no deeper. -/
theorem Begins.printable {t rest : List Char} {p : Phrase} {depth : Nat}
    (h : Begins t p depth rest) : p.PrintableWithin depth := by
  induction h with
  | null => exact .null
  | trueWord | falseWord => exact .bool
  | number hnumber _ => exact .number hnumber.finite
  | string _ => exact .string
  | emptyList _ => exact .list fun v hv => by cases hv
  | list _ ih => exact .list ih
  | emptyObject _ => exact .object List.nodup_nil fun e he => by cases he
  | object _ ih =>
    exact .object (Members.distinct_ofList _) fun e he => ih e (Members.mem_of_mem_ofList _ he)
  | lastItem _ _ ih => exact List.forall_mem_singleton.mpr ih
  | item _ _ _ ih ihothers =>
    refine List.forall_mem_cons.mpr ⟨ih.mono (Nat.le_max_left _ _), ?_⟩
    exact fun v hv => (ihothers v hv).mono (Nat.le_max_right _ _)
  | lastMember _ _ _ _ ih => exact List.forall_mem_singleton.mpr ih
  | member _ _ _ _ _ ih ihothers =>
    refine List.forall_mem_cons.mpr ⟨ih.mono (Nat.le_max_left _ _), ?_⟩
    exact fun e he => (ihothers e he).mono (Nat.le_max_right _ _)

theorem IsDocument.printable {t : List Char} {v : Value} {depth : Nat}
    (h : IsDocument t v depth) : v.PrintableWithin depth := by
  obtain ⟨rest, hbegins, -⟩ := h
  exact hbegins.printable

section
variable {text : String} {v : Value}

theorem strict_read_eq_ok_iff :
    strict.read text = .ok v ↔ ∃ depth, IsDocument text.toList v depth := by
  rw [← readDocument_eq_some_iff]
  simp only [strict]
  cases readDocument text.toList <;> simp

theorem exists_isText_of_strict_read (h : strict.read text = .ok v) :
    ∃ depth, Syntax.IsText text.toList depth := by
  obtain ⟨depth, hdocument⟩ := strict_read_eq_ok_iff.mp h
  exact ⟨depth, hdocument.isText⟩

theorem isDocument_of_write {layout : Layout} (hv : v.Printable)
    (h : strict.write layout v = .ok text) : IsDocument text.toList v v.depth := by
  obtain ⟨levels, hlevels⟩ := hv
  obtain ⟨written, depth, hwrite, hdocument, hle⟩ :=
    exists_write_of_printable layout hlevels.within_depth
  obtain rfl := Except.ok.inj (hwrite.symm.trans h)
  obtain rfl := Nat.le_antisymm hle hdocument.printable.depth_le
  exact hdocument

theorem strict_keepsOrder : strict.KeepsOrder := fun hv h =>
  strict_read_eq_ok_iff.mpr ⟨_, isDocument_of_write hv h⟩

theorem strict_lawful : strict.Lawful where
  printable h := by
    obtain ⟨depth, hdocument⟩ := strict_read_eq_ok_iff.mp h
    exact ⟨depth, hdocument.printable⟩
  writes layout {v} hv := by
    obtain ⟨levels, hlevels⟩ := hv
    obtain ⟨text, _, hwrite, -⟩ := exists_write_of_printable layout hlevels
    exact ⟨text, hwrite⟩
  depth hv h := (isDocument_of_write hv h).nestingDepth_eq
  reads {_ v _} hv h := by
    obtain ⟨levels, hlevels⟩ := id hv
    exact ⟨v, strict_keepsOrder hv h, hlevels.same_self⟩

theorem strict_keepsNesting : strict.KeepsNesting := by
  intro text depth v htext hread
  obtain ⟨read, hdocument⟩ := strict_read_eq_ok_iff.mp hread
  have hdepth : (read : Int) = depth := hdocument.nestingDepth_eq.symm.trans htext.nestingDepth_eq
  obtain rfl := Int.ofNat_inj.mp hdepth
  exact hdocument.printable.depth_le

theorem printableWithin_of_strict_parse (h : strict.parse text = .ok v) :
    v.PrintableWithin maxNesting := by
  obtain ⟨-, hread⟩ := Library.parse_eq_ok_iff.mp h
  obtain ⟨depth, htext⟩ := exists_isText_of_strict_read hread
  obtain ⟨-, hlimit⟩ := (strict_keepsNesting.covered htext).depth_le_of_parse h
  exact Value.printableWithin_iff.mpr ⟨strict_lawful.toClosed.printable hread, hlimit⟩

end
end Underwriting.Json
