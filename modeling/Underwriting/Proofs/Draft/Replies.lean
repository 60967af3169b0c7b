import Underwriting.Draft.Reply
import Underwriting.Json.Strict
import Underwriting.Proofs.Text.Parts

/-! # How replies are interpreted

A reply is searched for a document from both ends. What is found is the one way to cut it
into a lead without an opening brace, a document between braces and a rest without a closing
one. Only a document that gives a usable draft counts; any other reply is a question.
-/
namespace Underwriting

theorem Draft.flaw?_eq_none_iff {d : Draft} :
    d.flaw? = none ↔
      d.name ≠ "" ∧ d.logic.condition.entries ≠ [] ∧ d.logic.thenActions ≠ [] := by
  unfold flaw?
  split
  · simp [*]
  · split
    · simp_all
    · split <;> simp_all

namespace Reply

/-- A text in three parts, the second of which stands between braces. -/
structure Sections (content lead document rest : List Char) : Prop where
  split : content = lead ++ document ++ rest
  lead : '\x7b' ∉ lead
  rest : '\x7d' ∉ rest
  opened : document.head? = some '\x7b'
  closed : document.getLast? = some '\x7d'

section Sections
variable {content lead document rest : List Char}

theorem Sections.lead_eq (h : Sections content lead document rest) :
    content.takeWhile (· != '\x7b') = lead ∧
      content.dropWhile (· != '\x7b') = document ++ rest := by
  obtain ⟨tail, htail⟩ := List.head?_eq_some_iff.mp h.opened
  have hlead : ∀ c ∈ lead, (c != '\x7b') = true := fun c hc =>
    bne_iff_ne.mpr fun hbrace => h.lead (hbrace ▸ hc)
  rw [h.split, List.append_assoc, List.takeWhile_append_of_pos hlead,
    List.dropWhile_append_of_pos hlead, htail]
  exact ⟨List.append_nil lead, rfl⟩

theorem Sections.document_eq (h : Sections content lead document rest) :
    Text.trimEnd (· != '\x7d') (document ++ rest) = document := by
  apply Text.trimEnd_append
  · exact fun c hc => bne_iff_ne.mpr fun hbrace => h.rest (hbrace ▸ hc)
  · rw [h.closed]
    rintro c ⟨⟩
    rfl

theorem exists_sections (hlead : content.takeWhile (· != '\x7b') = lead)
    (hdocument : Text.trimEnd (· != '\x7d') (content.dropWhile (· != '\x7b')) = document)
    (hne : document ≠ []) : ∃ rest, Sections content lead document rest := by
  obtain ⟨rest, hbody, hrest⟩ :=
    Text.exists_trimEnd_append (· != '\x7d') (content.dropWhile (· != '\x7b'))
  rw [hdocument] at hbody
  refine ⟨rest, ?_, fun hmem => ?_, fun hmem => ?_, ?_, ?_⟩
  · rw [List.append_assoc, ← hbody, ← hlead, List.takeWhile_append_dropWhile]
  · rw [← hlead] at hmem
    exact absurd (List.mem_takeWhile_imp hmem) (by decide)
  · exact absurd (hrest _ hmem) (by decide)
  · obtain ⟨c, tail, rfl⟩ := List.exists_cons_of_ne_nil hne
    have hhead : (content.dropWhile (· != '\x7b')).head? = some c := by
      rw [hbody]
      rfl
    have hopen := Text.head_dropWhile hhead
    rw [List.head?_cons, bne_eq_false_iff_eq.mp hopen]
  · obtain ⟨c, hc⟩ := Option.ne_none_iff_exists'.mp (mt List.getLast?_eq_none_iff.mp hne)
    rw [← hdocument] at hc
    have hclose := Text.last_trimEnd hc
    rw [← hdocument, hc, bne_eq_false_iff_eq.mp hclose]

theorem span?_eq_some_iff :
    span? content = some (lead, document) ↔
      (∃ rest, Sections content lead document rest) ∧ logicKey <:+: document := by
  constructor
  · intro h
    simp only [span?, Option.ite_none_right_eq_some, Option.some.injEq, Prod.mk.injEq] at h
    obtain ⟨hkey, hlead, hdocument⟩ := h
    rw [hdocument] at hkey
    have hinfix := Text.occursIn_eq_true_iff.mp hkey
    refine ⟨exists_sections hlead hdocument ?_, hinfix⟩
    rintro rfl
    cases List.eq_nil_of_infix_nil hinfix
  · rintro ⟨⟨rest, hsections⟩, hkey⟩
    obtain ⟨hlead, hbody⟩ := hsections.lead_eq
    simp only [span?, hlead, hbody, hsections.document_eq,
      Text.occursIn_eq_true_iff.mpr hkey, if_true]

end Sections

/-- A reply that holds a usable draft: where it stands, and which one it is. -/
structure Proposes (json : Json.Library) (content : String) (lead document rest : List Char)
    (d : Draft) : Prop where
  sections : Sections content.toList lead document rest
  key : logicKey <:+: document
  read : Draft.ofJson json (String.ofList document) = .ok d
  name : d.name ≠ ""
  conditions : d.logic.condition.entries ≠ []
  actions : d.logic.thenActions ≠ []

theorem defaultMessage_ne_empty (name : String) : defaultMessage name ≠ "" := by
  intro hempty
  unfold defaultMessage at hempty
  exact absurd (String.append_eq_empty_iff.mp hempty).2 (by decide)

/-- A draft comes with what is said before it, and never without a word. -/
theorem withDraft_eq (lead : List Char) (d : Draft) :
    ∃ words, Text.Trimmed isBlank lead words ∧
      withDraft lead d =
        ⟨true, if words.isEmpty then defaultMessage d.name else String.ofList words, none,
          some 85, false, some d⟩ ∧ (withDraft lead d).message ≠ "" := by
  refine ⟨Text.trim isBlank lead, Text.trimmed_trim isBlank lead, rfl, ?_⟩
  simp only [withDraft, List.isEmpty_iff]
  split
  · exact defaultMessage_ne_empty d.name
  · rename_i hwords
    exact mt String.ofList_eq_empty_iff.mp hwords

section Interpretation
variable {json : Json.Library} {content : String} {lead document rest : List Char} {d : Draft}

theorem Proposes.ofContent_eq (h : Proposes json content lead document rest d) :
    ofContent json content = withDraft lead d := by
  have hspan := span?_eq_some_iff.mpr ⟨⟨rest, h.sections⟩, h.key⟩
  have hflaw := Draft.flaw?_eq_none_iff.mpr ⟨h.name, h.conditions, h.actions⟩
  simp only [ofContent, hspan, h.read, hflaw, Option.isSome_none, Bool.false_eq_true, if_false]

theorem question_or_proposes (json : Json.Library) (content : String) :
    ofContent json content = question content ∨
      ∃ lead document rest d, Proposes json content lead document rest d := by
  cases hspan : span? content.toList with
  | none => exact Or.inl (by simp only [ofContent, hspan])
  | some found =>
    obtain ⟨lead, document⟩ := found
    cases hread : Draft.ofJson json (String.ofList document) with
    | error e => exact Or.inl (by simp only [ofContent, hspan, hread])
    | ok d =>
      cases hflaw : d.flaw? with
      | some flaw =>
        left
        simp only [ofContent, hspan, hread, hflaw, Option.isSome_some, if_true]
      | none =>
        obtain ⟨⟨rest, hsections⟩, hkey⟩ := span?_eq_some_iff.mp hspan
        obtain ⟨hname, hconditions, hactions⟩ := Draft.flaw?_eq_none_iff.mp hflaw
        exact Or.inr ⟨lead, document, rest, d, hsections, hkey, hread, hname, hconditions, hactions⟩

theorem draft_eq_some_iff :
    (ofContent json content).draft = some d ↔
      ∃ lead document rest, Proposes json content lead document rest d := by
  constructor
  · intro h
    rcases question_or_proposes json content with hquestion | ⟨lead, document, rest, d', hproposes⟩
    · rw [hquestion] at h
      cases h
    · rw [hproposes.ofContent_eq] at h
      obtain rfl := Option.some.inj h
      exact ⟨lead, document, rest, hproposes⟩
  · rintro ⟨lead, document, rest, hproposes⟩
    rw [hproposes.ofContent_eq]
    rfl

/-- A reply is never refused. It gives a draft exactly when it holds a usable one, together
with what it says before it; otherwise it is a question in all its words. -/
theorem ofContent_interprets (json : Json.Library) (content : String) :
    (ofContent json content).success = true ∧
    (∀ d, (ofContent json content).draft = some d ↔
      ∃ lead document rest, Proposes json content lead document rest d) ∧
    (∀ lead document rest d, Proposes json content lead document rest d →
      ∃ words, Text.Trimmed isBlank lead words ∧
        ofContent json content =
          ⟨true, if words.isEmpty then defaultMessage d.name else String.ofList words, none,
            some 85, false, some d⟩ ∧ (ofContent json content).message ≠ "") ∧
    ((ofContent json content).draft = none →
      ofContent json content = ⟨true, content, none, none, true, none⟩) := by
  refine ⟨?_, fun d => draft_eq_some_iff, fun lead document rest d hproposes => ?_, fun hnone => ?_⟩
  · rcases question_or_proposes json content with hquestion | ⟨lead, document, rest, d, hproposes⟩
    · rw [hquestion, question]
    · rw [hproposes.ofContent_eq, withDraft]
  · rw [hproposes.ofContent_eq]
    exact withDraft_eq lead d
  · rcases question_or_proposes json content with hquestion | ⟨lead, document, rest, d, hproposes⟩
    · exact hquestion
    · rw [draft_eq_some_iff.mpr ⟨lead, document, rest, hproposes⟩] at hnone
      cases hnone

end Interpretation

def vacancyReply : String :=
  "Here it is:\n\x7b\"name\":\"Vacant\",\"logic\":\x7b\"if\":\x7b\"op\":\"AND\"," ++
    "\"conditions\":[\x7b\"field\":\"vacant\",\"operator\":\"exists\"\x7d]\x7d," ++
    "\"then\":[\x7b\"type\":\"block\"\x7d]\x7d\x7d\nShall I save it?"

theorem ofContent_vacancyReply :
    (∃ lead document rest d, Proposes Json.strict vacancyReply lead document rest d ∧
      (ofContent Json.strict vacancyReply).draft = some d ∧
      (ofContent Json.strict vacancyReply).confidence = some 85 ∧
      (ofContent Json.strict vacancyReply).message ≠ "") ∧
    ofContent Json.strict "In which state?" =
      ⟨true, "In which state?", none, none, true, none⟩ := by
  have hsome : (ofContent Json.strict vacancyReply).draft.isSome = true := by decide +kernel
  obtain ⟨d, hdraft⟩ := Option.isSome_iff_exists.mp hsome
  obtain ⟨-, hiff, hfound, -⟩ := ofContent_interprets Json.strict vacancyReply
  obtain ⟨-, -, -, hquestion⟩ := ofContent_interprets Json.strict "In which state?"
  obtain ⟨lead, document, rest, hproposes⟩ := (hiff d).mp hdraft
  obtain ⟨words, -, heq, hmessage⟩ := hfound lead document rest d hproposes
  refine ⟨⟨lead, document, rest, d, hproposes, hdraft, ?_, hmessage⟩, hquestion ?_⟩
  · rw [heq]
  · rfl

end Reply
end Underwriting
