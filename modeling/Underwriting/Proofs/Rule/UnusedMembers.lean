import Mathlib.Data.List.Forall2
import Mathlib.Data.Option.Defs
import Underwriting.Proofs.Rule.Language

/-! # Members that no rule uses

Two documents are alike when they differ only in members that nothing is read from. Alike
documents are read as the same rule, or refused for the same fault at the same place.
-/
namespace Underwriting

def Members.AgreeOn (keys : List String) (ms others : Members) : Prop :=
  ∀ key ∈ keys, others.get? key = ms.get? key

def Condition.keys : List String := ["field", "operator", "value", "valueType", "description"]

def Action.keys : List String :=
  ["type", "target", "operator", "value", "message", "severity", "description"]

mutual
/-- Groups that differ only in unused members: nothing but `op` and `conditions` is used,
and the entries under `conditions` may hold unused members themselves. -/
inductive AlikeGroups : Value → Value → Prop where
  | same (v : Value) : AlikeGroups v v
  | object {ms others : Members} :
    ms.AgreeOn ["op", "conditions"] others → AlikeGroups (.object ms) (.object others)
  | nested {ms others : Members} {items others' : List Value} :
    ms.AgreeOn ["op"] others → ms.get? "conditions" = some (.list items) →
      others.get? "conditions" = some (.list others') →
      List.Forall₂ AlikeEntries items others' → AlikeGroups (.object ms) (.object others)

/-- Entries that differ only in unused members. An object without the two keys of groups is
used as a condition. -/
inductive AlikeEntries : Value → Value → Prop where
  | same (v : Value) : AlikeEntries v v
  | group {ms others : Members} :
    ms.HasBoth "op" "conditions" → others.HasBoth "op" "conditions" →
      AlikeGroups (.object ms) (.object others) → AlikeEntries (.object ms) (.object others)
  | condition {ms others : Members} :
    ¬ ms.HasBoth "op" "conditions" → ¬ others.HasBoth "op" "conditions" →
      ms.AgreeOn Condition.keys others → AlikeEntries (.object ms) (.object others)
end

inductive AlikeActions : Value → Value → Prop where
  | same (v : Value) : AlikeActions v v
  | object {ms others : Members} :
    ms.AgreeOn Action.keys others → AlikeActions (.object ms) (.object others)

inductive AlikeActionLists : Value → Value → Prop where
  | same (v : Value) : AlikeActionLists v v
  | list {items others : List Value} :
    List.Forall₂ AlikeActions items others → AlikeActionLists (.list items) (.list others)

/-- Documents that differ only in unused members, at any depth. -/
inductive AlikeRules : Value → Value → Prop where
  | same (v : Value) : AlikeRules v v
  | object {ms others : Members} :
    ms.AgreeOn ["version"] others → Option.Rel AlikeGroups (ms.get? "if") (others.get? "if") →
      Option.Rel AlikeActionLists (ms.get? "then") (others.get? "then") →
      Option.Rel AlikeActionLists (ms.get? "else") (others.get? "else") →
      AlikeRules (.object ms) (.object others)

/-! ## Readers of one member -/

namespace Members
variable {ms others : Members} {key : String}

theorem contains_congr (h : others.get? key = ms.get? key) :
    others.contains key = ms.contains key := by
  unfold contains
  rw [h]

theorem string_congr (h : others.get? key = ms.get? key) :
    others.string key = ms.string key := by
  unfold string
  rw [h]

theorem optionalString_congr (h : others.get? key = ms.get? key) :
    others.optionalString key = ms.optionalString key := by
  unfold optionalString
  rw [h]

theorem word_congr {α : Type} [Vocabulary α] (h : others.get? key = ms.get? key) :
    (others.word key : Except Fault α) = ms.word key := by
  unfold word
  rw [string_congr h]

theorem optionalWord_congr {α : Type} [Vocabulary α] (h : others.get? key = ms.get? key) :
    (others.optionalWord key : Except Fault (Option α)) = ms.optionalWord key := by
  unfold optionalWord contains
  rw [word_congr h, h]

theorem integer_congr (default : Int32) (h : others.get? key = ms.get? key) :
    others.integer key default = ms.integer key default := by
  unfold integer
  rw [h]

theorem list_congr (h : others.get? key = ms.get? key) : others.list key = ms.list key := by
  unfold list
  rw [h]

end Members

theorem Condition.ofMembers_congr {ms others : Members} (h : ms.AgreeOn Condition.keys others) :
    Condition.ofMembers others = Condition.ofMembers ms := by
  have hfield := Members.string_congr (h "field" (by decide))
  have hoperator := Members.word_congr (α := Operator) (h "operator" (by decide))
  have hvalue := h "value" (by decide)
  have hvalueType := Members.optionalWord_congr (α := ValueType) (h "valueType" (by decide))
  have hdescription := Members.optionalString_congr (h "description" (by decide))
  simp only [ofMembers, hfield, hoperator, hvalue, hvalueType, hdescription]

theorem Action.ofMembers_congr {ms others : Members} (h : ms.AgreeOn Action.keys others) :
    Action.ofMembers others = Action.ofMembers ms := by
  have htype := Members.word_congr (α := ActionKind) (h "type" (by decide))
  have htarget := Members.optionalString_congr (h "target" (by decide))
  have hoperator := Members.optionalWord_congr (α := Adjustment) (h "operator" (by decide))
  have hvalue := h "value" (by decide)
  have hmessage := Members.optionalString_congr (h "message" (by decide))
  have hseverity := Members.optionalWord_congr (α := Severity) (h "severity" (by decide))
  have hdescription := Members.optionalString_congr (h "description" (by decide))
  simp only [ofMembers, htype, htarget, hoperator, hvalue, hmessage, hseverity, hdescription]

/-! ## Lists and trees -/

theorem readEach_congr {α ε : Type} (read : Nat → Value → Except ε α)
    {Alike : Value → Value → Prop} (h : ∀ i v w, Alike v w → read i w = read i v)
    {vs ws : List Value} (hvs : List.Forall₂ Alike vs ws) (i : Nat) :
    readEach read i ws = readEach read i vs := by
  induction hvs generalizing i with
  | nil => rfl
  | cons hfirst _ ih => rw [readEach, readEach, h i _ _ hfirst, ih]

theorem actionsOfValue_congr {branch : Branch} {v w : Value} (h : AlikeActionLists v w) :
    actionsOfValue branch w = actionsOfValue branch v := by
  cases h with
  | same => rfl
  | list hitems =>
    refine readEach_congr _ ?_ hitems 0
    intro i v w h
    cases h with
    | same => rfl
    | object hkeys =>
      change Location.check _ (Action.ofMembers _) = Location.check _ (Action.ofMembers _)
      rw [Action.ofMembers_congr hkeys]

theorem Entry.ofValue_object (nested : Location → Value → Except DecodeError ConditionGroup)
    (location : Location) (ms : Members) :
    Entry.ofValue nested location (.object ms) =
      (location.check (Shape.ofMembers ms) >>= fun
        | .group => do return (← nested location (.object ms)).toEntry
        | .condition => do return .condition (← location.check (Condition.ofMembers ms))) := rfl

theorem ConditionGroup.ofValue_object (levels : Nat) (location : Location) (ms : Members) :
    ConditionGroup.ofValue (levels + 1) location (.object ms) = (do
      let connective ← location.check (ms.word "op")
      let items ← location.check (ms.list "conditions")
      let entries ← readEach
        (fun i => Entry.ofValue (ConditionGroup.ofValue levels) (location.entry i)) 0 items
      return ⟨connective, entries⟩) := rfl

theorem Entry.Shape.ofMembers_eq_group {ms : Members} :
    Entry.Shape.ofMembers ms = .ok .group ↔ ms.HasBoth "op" "conditions" := by
  unfold ofMembers Members.HasBoth
  cases ms.contains "op" <;> cases ms.contains "conditions" <;>
    cases ms.contains "field" <;> cases ms.contains "operator" <;> decide

theorem Entry.Shape.ofMembers_congr {ms others : Members}
    (hms : ¬ ms.HasBoth "op" "conditions") (hothers : ¬ others.HasBoth "op" "conditions")
    (h : ms.AgreeOn Condition.keys others) : ofMembers others = ofMembers ms := by
  have hfield := Members.contains_congr (h "field" (by decide))
  have hoperator := Members.contains_congr (h "operator" (by decide))
  rw [Members.HasBoth, ← Bool.and_eq_true] at hms hothers
  simp only [ofMembers, if_neg hms, if_neg hothers, hfield, hoperator]

theorem Entry.ofValue_congr {nested : Location → Value → Except DecodeError ConditionGroup}
    (hnested : ∀ location v w, AlikeGroups v w → nested location w = nested location v)
    (location : Location) {v w : Value} (h : AlikeEntries v w) :
    Entry.ofValue nested location w = Entry.ofValue nested location v := by
  cases h with
  | same => rfl
  | @group ms others hms hothers halike =>
    rw [ofValue_object, ofValue_object, Shape.ofMembers_eq_group.mpr hms,
      Shape.ofMembers_eq_group.mpr hothers]
    change (do return (← nested location (.object others)).toEntry) = _
    rw [hnested location _ _ halike]
    rfl
  | @condition ms others hms hothers hkeys =>
    rw [ofValue_object, ofValue_object, Shape.ofMembers_congr hms hothers hkeys,
      Condition.ofMembers_congr hkeys]
    cases hshape : Shape.ofMembers ms with
    | error fault => rfl
    | ok shape =>
      cases shape with
      | group => exact absurd (Shape.ofMembers_eq_group.mp hshape) hms
      | condition => rfl

theorem ConditionGroup.ofValue_congr {levels : Nat} {location : Location} {v w : Value}
    (h : AlikeGroups v w) :
    ConditionGroup.ofValue levels location w = ConditionGroup.ofValue levels location v := by
  induction levels generalizing location v w with
  | zero => rfl
  | succ levels ih =>
    cases h with
    | same => rfl
    | @object ms others hkeys =>
      have hop := Members.word_congr (α := Connective) (hkeys "op" (by decide))
      have hlist := Members.list_congr (hkeys "conditions" (by decide))
      rw [ofValue_object, ofValue_object, hop, hlist]
    | @nested ms others items others' hkeys hitems hothers halike =>
      have hop := Members.word_congr (α := Connective) (hkeys "op" (by decide))
      have hread := readEach_congr
        (fun i => Entry.ofValue (ConditionGroup.ofValue levels) (location.entry i))
        (fun i v w h => Entry.ofValue_congr (fun _ _ _ => ih) (location.entry i) h) halike 0
      rw [ofValue_object, ofValue_object, hop, Members.list_eq_ok.mpr hitems,
        Members.list_eq_ok.mpr hothers]
      change (location.check (ms.word "op") >>= fun connective =>
        readEach _ 0 others' >>= fun entries => _) = _
      rw [hread]
      rfl

/-! ## Rules -/

theorem optionalActions_congr {branch : Branch} {v w : Option Value}
    (h : Option.Rel AlikeActionLists v w) :
    optionalActions branch w = optionalActions branch v := by
  cases h with
  | none => rfl
  | some hlists =>
    cases hlists with
    | same => rfl
    | list hitems =>
      exact congrArg (Except.map some) (actionsOfValue_congr (.list hitems))

theorem Logic.ofValue_object (ms : Members) :
    Logic.ofValue (.object ms) = (do
      let version ← Location.document.check (ms.integer "version" 1)
      let tree ← Location.document.check (ms.required "if")
      let condition ← ConditionGroup.ofValue maxGroupDepth .root tree
      let actions ← Location.document.check (ms.required "then")
      let thenActions ← actionsOfValue .thenBranch actions
      let elseActions ← optionalActions .elseBranch (ms.get? "else")
      return ⟨version, condition, thenActions, elseActions⟩) := rfl

theorem Members.required_bind_congr {α : Type} {Alike : Value → Value → Prop}
    {use use' : Value → Except DecodeError α} {ms others : Members} {key : String}
    (h : Option.Rel Alike (ms.get? key) (others.get? key))
    (huse : ∀ v w, Alike v w → use' w = use v) (location : Location) :
    (location.check (others.required key) >>= use') =
      (location.check (ms.required key) >>= use) := by
  unfold required
  revert h
  cases ms.get? key <;> cases others.get? key <;> intro h <;> cases h
  · rfl
  · rename_i hvalues
    exact huse _ _ hvalues

theorem Logic.ofValue_congr {v w : Value} (h : AlikeRules v w) :
    Logic.ofValue w = Logic.ofValue v := by
  cases h with
  | same => rfl
  | @object ms others hversion htree hthen helse =>
    have hinteger := Members.integer_congr 1 (hversion "version" (by decide))
    rw [ofValue_object, ofValue_object, hinteger, optionalActions_congr helse]
    congr 1
    funext version
    refine Members.required_bind_congr htree ?_ _
    intro tree tree' htrees
    rw [ConditionGroup.ofValue_congr htrees]
    congr 1
    funext condition
    refine Members.required_bind_congr hthen ?_ _
    intro actions actions' hactions
    rw [actionsOfValue_congr hactions]

end Underwriting
