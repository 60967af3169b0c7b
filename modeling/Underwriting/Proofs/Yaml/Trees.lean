import Underwriting.Proofs.Value.Order
import Underwriting.Yaml.Standard

/-! # YAML trees that write a JSON value

A value can be written as a YAML tree in many ways: null, truth values and numbers have several
spellings, and members may come in any order. What is quoted is a text, whatever it looks like,
so every such tree stands for the value that it was written for.
-/
namespace Underwriting.Yaml

/-- What is asked of a library for scalars. Which texts are numbers is left to it, apart from
the words for null and truth values. -/
structure Library.Conforms (yaml : Library) : Prop where
  string : ∀ text tag, yaml.string (.scalar text tag) = .ok text
  trueWord : ∀ text ∈ trueWords, yaml.boolean (.plain text) = .ok true
  falseWord : ∀ text ∈ falseWords, yaml.boolean (.plain text) = .ok false
  number? : ∀ text ∈ nullWords ++ trueWords ++ falseWords, yaml.number? text = none

/-- The trees of a JSON value: texts and keys are quoted, and nothing else is. A number is
written as any text that the library reads as that number. -/
inductive Writes (yaml : Library) : Value → Node → Prop where
  | null : Writes yaml .null .null
  | nullWord {text : String} :
    text ∈ ["~", "null", "Null", "NULL"] → Writes yaml .null (.plain text)
  | trueWord {text : String} :
    text ∈ ["true", "True", "TRUE"] → Writes yaml (.bool true) (.plain text)
  | falseWord {text : String} :
    text ∈ ["false", "False", "FALSE"] → Writes yaml (.bool false) (.plain text)
  | number {text : String} {x : Float} :
    yaml.number? text = some x → Writes yaml (.number x) (.plain text)
  | string {s : String} : Writes yaml (.string s) (.quoted s)
  | list {entries : List (Value × Node)} :
    (∀ e ∈ entries, Writes yaml e.1 e.2) →
      Writes yaml (.list (entries.map Prod.fst)) (.sequence (entries.map Prod.snd))
  | object {ms : Members} {entries : List (String × Value × Node)} :
    ms.Distinct → ms.Perm (entries.map fun e => (e.1, e.2.1)) →
      (∀ e ∈ entries, Writes yaml e.2.1 e.2.2) →
      Writes yaml (.object ms) (.map (entries.map fun e => (.quoted e.1, e.2.2)))

variable {yaml : Library}

/-! ## Scalars -/

section Scalars
variable {text : String}

theorem toValue_of_nullWord (h : text ∈ nullWords) :
    (Node.plain text).toValue yaml = .ok .null := by
  rw [Node.plain, Node.toValue, Node.scalarValue, if_neg (by decide),
    if_pos (List.contains_iff_mem.mpr h)]

/-- No word for a truth value is one for null. -/
theorem toValue_of_truthWord {b : Bool} (h : text ∈ trueWords ++ falseWords)
    (hread : yaml.boolean (.plain text) = .ok b) :
    (Node.plain text).toValue yaml = .ok (.bool b) := by
  have hapart : ∀ word ∈ trueWords ++ falseWords, word ∉ nullWords := by decide
  rw [Node.plain, Node.toValue, Node.scalarValue, if_neg (by decide),
    if_neg (mt List.contains_iff_mem.mp (hapart text h)), if_pos (List.contains_iff_mem.mpr h)]
  exact congrArg (Except.map Value.bool) hread

theorem toValue_of_number (hyaml : yaml.Conforms) {x : Float} (h : yaml.number? text = some x) :
    (Node.plain text).toValue yaml = .ok (.number x) := by
  have hword : text ∉ nullWords ++ trueWords ++ falseWords := by
    intro hmem
    rw [hyaml.number? text hmem] at h
    cases h
  rw [List.append_assoc, List.mem_append, not_or] at hword
  obtain ⟨hnull, htruth⟩ := hword
  rw [Node.plain, Node.toValue, Node.scalarValue, if_neg (by decide),
    if_neg (mt List.contains_iff_mem.mp hnull), if_neg (mt List.contains_iff_mem.mp htruth)]
  simp only [h]

end Scalars

/-! ## Trees -/

namespace Node

theorem itemValues_map {entries : List (Value × Node)}
    (h : ∀ e ∈ entries, ∃ w, e.2.toValue yaml = .ok w ∧ e.1.Same w) :
    ∃ ws, itemValues yaml (entries.map Prod.snd) = .ok ws ∧
      List.Forall₂ Value.Same (entries.map Prod.fst) ws := by
  induction entries with
  | nil => exact ⟨[], rfl, .nil⟩
  | cons e entries ih =>
    obtain ⟨⟨w, hw, hsame⟩, hothers⟩ := List.forall_mem_cons.mp h
    obtain ⟨ws, hws, hall⟩ := ih hothers
    refine ⟨w :: ws, ?_, .cons hsame hall⟩
    simp only [List.map_cons, itemValues, hw, hws]

theorem entryValues_map (hyaml : yaml.Conforms) {entries : List (String × Value × Node)}
    (h : ∀ e ∈ entries, ∃ w, e.2.2.toValue yaml = .ok w ∧ e.2.1.Same w) :
    ∃ ws : Members,
      List.Forall₂ (fun e d => e.1 = d.1 ∧ Value.Same e.2 d.2)
        (entries.map fun e => (e.1, e.2.1)) ws ∧
      ∀ ms, entryValues yaml ms (entries.map fun e => (.quoted e.1, e.2.2)) =
        .ok (ws.foldl (fun ms e => ms.insert e.1 e.2) ms) := by
  induction entries with
  | nil => exact ⟨[], .nil, fun ms => rfl⟩
  | cons e entries ih =>
    obtain ⟨⟨w, hw, hsame⟩, hothers⟩ := List.forall_mem_cons.mp h
    obtain ⟨ws, hall, hwrite⟩ := ih hothers
    refine ⟨(e.1, w) :: ws, .cons ⟨rfl, hsame⟩ hall, fun ms => ?_⟩
    simp only [List.map_cons, entryValues, hw, quoted, hyaml.string, List.foldl_cons]
    exact hwrite _

end Node

theorem Writes.exists_toValue (hyaml : yaml.Conforms) {v : Value} {n : Node}
    (h : Writes yaml v n) : ∃ w, n.toValue yaml = .ok w ∧ v.Same w := by
  induction h with
  | null => exact ⟨.null, rfl, .atom trivial⟩
  | nullWord hword => exact ⟨.null, toValue_of_nullWord hword, .atom trivial⟩
  | trueWord hword =>
    exact ⟨.bool true, toValue_of_truthWord (List.mem_append_left _ hword)
      (hyaml.trueWord _ hword), .atom trivial⟩
  | falseWord hword =>
    exact ⟨.bool false, toValue_of_truthWord (List.mem_append_right _ hword)
      (hyaml.falseWord _ hword), .atom trivial⟩
  | @number text x hread => exact ⟨.number x, toValue_of_number hyaml hread, .atom trivial⟩
  | string => exact ⟨_, rfl, .atom trivial⟩
  | list _ ih =>
    obtain ⟨ws, hitems, hsame⟩ := Node.itemValues_map ih
    refine ⟨.list ws, ?_, .list hsame⟩
    rw [Node.toValue, hitems]
    rfl
  | @object ms entries hdistinct hperm _ ih =>
    obtain ⟨ws, hsame, hmembers⟩ := Node.entryValues_map hyaml ih
    have hentries := hdistinct.perm hperm
    have hwritten := hentries.of_forall₂ hsame
    refine ⟨.object ws, ?_, .object hdistinct hwritten fun key => ?_⟩
    · have hlist : ws.foldl (fun ms e => Members.insert ms e.1 e.2) [] = ws :=
        Members.ofList_of_distinct hwritten
      rw [Node.toValue, hmembers, hlist]
      rfl
    · rw [Members.get?_perm hdistinct hperm]
      exact Members.same_of_forall₂ hsame key

theorem standard_conforms : standard.Conforms where
  string _ _ := rfl
  trueWord := by decide
  falseWord := by decide
  number? := by decide

end Underwriting.Yaml
