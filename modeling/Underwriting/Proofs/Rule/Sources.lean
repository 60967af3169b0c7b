import Underwriting.Config.Load
import Underwriting.Proofs.Json.Strict
import Underwriting.Proofs.Rule.Order
import Underwriting.Proofs.Yaml.Trees

/-! # Rules from trees and from texts

A rule in a file of its own is written as a YAML document or as JSON text. Whatever spellings
the document chooses, both files of one value give the same rule, or are refused for the same
fault at the same place.
-/
namespace Underwriting.Logic
variable {yaml : Yaml.Library} {json : Json.Library} {files : Files} {path text : String}
  {v w : Value} {n : Yaml.Node}

theorem load_of_tree (hextension : FilePath.extension path ≠ ".json")
    (hfile : files.document path = .ok n) : load yaml json files path = ofNode yaml n := by
  rw [load, if_neg hextension]
  simp only [hfile]

theorem load_of_text (hextension : FilePath.extension path = ".json")
    (hfile : files.text? path = some text) :
    load yaml json files path = (ofJson json text).mapError .text := by
  rw [load, if_pos hextension]
  simp only [hfile]

theorem ofNode_agrees_with_ofJson (hyaml : yaml.Conforms) (htree : Yaml.Writes yaml v n)
    (hparse : json.parse text = .ok w) (hsame : v.Same w) :
    (∃ l m, ofJson json text = .ok l ∧ ofNode yaml n = .ok m ∧ l.Same m) ∨
      ∃ e, ofJson json text = .error (.decode e) ∧ ofNode yaml n = .error (.decode e) := by
  obtain ⟨x, hvalue, hsame'⟩ := htree.exists_toValue hyaml
  have hagree := ofValue_agree (Value.Same.right v hsame hsame')
  simp only [ofNode, ofJson, hvalue, hparse]
  generalize ofValue w = fromText at hagree
  generalize ofValue x = fromTree at hagree
  cases hagree with
  | ok hrule => exact Or.inl ⟨_, _, rfl, rfl, hrule⟩
  | error e => exact Or.inr ⟨e, rfl, rfl⟩

/-- A tree of a value stands for that value, and a rule that is loaded from the tree is the one
that is loaded from a text which the library for JSON reads as that value, or both are refused
with the same fault. A value has such texts, in either layout, if its numbers are finite, its
keys distinct and it nests at most 32 levels deep. -/
theorem load_tree_agrees_with_text (hyaml : yaml.Conforms) (htree : Yaml.Writes yaml v n) :
    (∃ w, n.toValue yaml = .ok w ∧ v.Same w) ∧
      (∀ (json : Json.Library) (text : String) (w : Value),
        Json.nestingDepth text.toList ≤ 32 → json.read text = .ok w → v.Same w →
        ∀ (files : Files) (document file : String),
          FilePath.extension document ≠ ".json" → files.document document = .ok n →
          FilePath.extension file = ".json" → files.text? file = some text →
          (∃ l m, load yaml json files file = .ok l ∧ load yaml json files document = .ok m ∧
              l.Same m) ∨
            ∃ e, load yaml json files file = .error (.text (.decode e)) ∧
              load yaml json files document = .error (.decode e)) ∧
      ∀ json : Json.Library, json.Lawful → v.PrintableWithin 32 → ∀ layout, ∃ text w,
        json.print layout v = .ok text ∧ Json.nestingDepth text.toList ≤ 32 ∧
          json.read text = .ok w ∧ v.Same w := by
  refine ⟨htree.exists_toValue hyaml, ?_, fun json hjson hprintable layout => ?_⟩
  · intro json text w hdepth hread hsame files document file htreeExtension htreeFile hextension
      hfile
    have hparse : json.parse text = .ok w := Json.Library.parse_eq_ok_iff.mpr ⟨hdepth, hread⟩
    rw [load_of_tree htreeExtension htreeFile, load_of_text hextension hfile]
    rcases ofNode_agrees_with_ofJson hyaml htree hparse hsame with
      ⟨l, m, hl, hm, hrule⟩ | ⟨e, hl, hm⟩
    · refine Or.inl ⟨l, m, ?_, hm, hrule⟩
      rw [hl]
      rfl
    · refine Or.inr ⟨e, ?_, hm⟩
      rw [hl]
      rfl
  · obtain ⟨hsome, hdepth⟩ := Value.printableWithin_iff.mp hprintable
    obtain ⟨text, hprint⟩ := hjson.exists_print layout hsome
    obtain ⟨w, hread, hsame⟩ := hjson.reads hsome (Json.Library.print_eq_ok_iff.mp hprint)
    refine ⟨text, w, hprint, ?_, hread, hsame⟩
    rw [hjson.nestingDepth_eq hsome hprint]
    exact Int.ofNat_le.mpr hdepth

/-- A condition on a field that is called null. -/
def vacantValue : Value :=
  .object
    [("if", .object
      [("op", .string "OR"),
       ("conditions", .list
        [.object
          [("field", .string "null"), ("operator", .string "gt"),
           ("value", .number (Binary64.ofInt 5))]])]),
     ("then", .list []), ("else", .null)]

/-- The same document backwards and with other spellings. -/
def vacantTree : Yaml.Node :=
  .map
    [(.quoted "else", .plain "Null"), (.quoted "then", .sequence []),
     (.quoted "if", .map
      [(.quoted "conditions", .sequence
        [.map
          [(.quoted "value", .plain "+5.0"), (.quoted "operator", .quoted "gt"),
           (.quoted "field", .quoted "null")]]),
       (.quoted "op", .quoted "OR")])]

theorem printable_vacantValue : vacantValue.PrintableWithin 32 := by
  refine .object (by decide) ?_
  simp only [List.forall_mem_cons]
  refine ⟨.object (by decide) ?_, .list (by simp), .null, by simp⟩
  simp only [List.forall_mem_cons]
  refine ⟨.string, .list ?_, by simp⟩
  simp only [List.forall_mem_cons]
  refine ⟨.object (by decide) ?_, by simp⟩
  simp only [List.forall_mem_cons]
  exact ⟨.string, .string, .number (Binary64.isFinite_ofInt32 5), by simp⟩

theorem writes_vacantTree : Yaml.Writes Yaml.standard vacantValue vacantTree := by
  have hfive : Yaml.standard.number? "+5.0" = some (Binary64.ofInt 5) := rfl
  have hbackwards (ms : Members) : ms.Perm ms.reverse := (List.reverse_perm ms).symm
  refine @Yaml.Writes.object _ _
    [("else", .null, .plain "Null"), ("then", .list [], .sequence []), ("if", _, _)]
    (by decide) (hbackwards _) ?_
  simp only [List.forall_mem_cons]
  refine ⟨.nullWord (by decide), @Yaml.Writes.list _ [] (by simp), ?_, by simp⟩
  refine @Yaml.Writes.object _ _
    [("conditions", _, _), ("op", .string "OR", .quoted "OR")] (by decide) (hbackwards _) ?_
  simp only [List.forall_mem_cons]
  refine ⟨@Yaml.Writes.list _ [(_, _)] ?_, .string, by simp⟩
  simp only [List.forall_mem_cons]
  refine ⟨@Yaml.Writes.object _ _
    [("value", _, .plain "+5.0"), ("operator", _, .quoted "gt"), ("field", _, .quoted "null")]
    (by decide) (hbackwards _) ?_, by simp⟩
  simp only [List.forall_mem_cons]
  exact ⟨.number hfive, .string, .string, by simp⟩

def inBothForms (document : Yaml.Node) (text : String) : Files :=
  ⟨"", fun path => if path = "rule.json" then some text else none,
    fun path => if path = "rule.yaml" then .ok document else .error ⟨"bad file"⟩⟩

theorem load_vacantTree :
    ∃ text, Json.strict.print .pretty vacantValue = .ok text ∧
      ∃ l m, load Yaml.standard Json.strict (inBothForms vacantTree text) "rule.json" = .ok l ∧
        load Yaml.standard Json.strict (inBothForms vacantTree text) "rule.yaml" = .ok m ∧
        l.Same m := by
  obtain ⟨-, hload, htexts⟩ :=
    load_tree_agrees_with_text Yaml.standard_conforms writes_vacantTree
  obtain ⟨text, w, hprint, hdepth, hread, hsame⟩ :=
    htexts Json.strict Json.strict_lawful printable_vacantValue .pretty
  refine ⟨text, hprint, ?_⟩
  have hboth := hload Json.strict text w hdepth hread hsame (inBothForms vacantTree text)
    "rule.yaml" "rule.json" (by decide) rfl (by decide) rfl
  have haccepted : (ofNode Yaml.standard vacantTree).isOk = true := by decide +kernel
  have htree : load Yaml.standard Json.strict (inBothForms vacantTree text) "rule.yaml" =
      ofNode Yaml.standard vacantTree := rfl
  rcases hboth with hrules | ⟨e, -, hrefused⟩
  · exact hrules
  · rw [htree] at hrefused
    rw [hrefused] at haccepted
    cases haccepted

end Underwriting.Logic
