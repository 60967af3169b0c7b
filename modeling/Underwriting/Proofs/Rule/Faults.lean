import Underwriting.Proofs.Rule.Acceptance

/-! # What faults tell

A fault that is reported of an object is there: the member it names is missing or is not what
it should be. So each reader, when it refuses, says something true of the members that it was
given.
-/
namespace Underwriting

theorem except_bind_eq_error {α β ε : Type} {x : Except ε α} {f : α → Except ε β} {e : ε} :
    (x >>= f) = .error e ↔ x = .error e ∨ ∃ a, x = .ok a ∧ f a = .error e := by
  cases x with
  | error e' =>
    have hbind : (Except.error e' >>= f) = .error e' := rfl
    simp [hbind]
  | ok a =>
    have hbind : (Except.ok a >>= f) = f a := rfl
    simp [hbind]

theorem except_pure_ne_error {α ε : Type} {a : α} {e : ε} :
    (pure a : Except ε α) ≠ .error e := by
  intro h
  cases h

theorem Location.check_eq_error {α : Type} {location : Location} {r : Except Fault α}
    {e : DecodeError} :
    location.check r = .error e ↔ e.location = location ∧ r = .error e.fault := by
  obtain ⟨place, fault⟩ := e
  cases r <;> simp [Location.check, eq_comm]

namespace Fault

def FoundIn (ms : Members) : Fault → Prop
  | .missing key => ms.get? key = none
  | .notAString key => ∃ v, ms.get? key = some v ∧ ∀ s, v ≠ .string s
  | .notAnInteger key => ∃ v, ms.get? key = some v ∧
    ∀ x, v = .number x → ¬ Binary64.IsWholeBetween (-2 ^ 31) (2 ^ 31 - 1) x
  | .notABoolean key => ∃ v, ms.get? key = some v ∧ ∀ b, v ≠ .bool b
  | .notAList key => ∃ v, ms.get? key = some v ∧ ∀ items, v ≠ .list items
  | .unknownWord e => ∃ key, ms.get? key = some (.string e.text) ∧ e.text ∉ e.valid
  | .missingValue operator => ms.get? "operator" = some (.word operator) ∧
    operator ≠ .present ∧ operator ≠ .absent ∧ ms.get? "value" = none
  | .badRange => ms.get? "operator" = some (.word Operator.between) ∧
    ∀ low high, ms.get? "value" ≠ some (.list [low, high])
  | .neitherConditionNorGroup =>
    ¬ ms.HasBoth "op" "conditions" ∧ ¬ ms.HasBoth "field" "operator"
  | _ => False

def FoundAt (location : Location) (v : Value) : Fault → Prop
  | .notAnObject found => v.kind = found ∧ ∀ ms, v ≠ .object ms
  | .notActions => ∀ items, v ≠ .list items
  | .nestedTooDeep => ∃ path, location = .condition path ∧ path.length = 8
  | fault => ∃ ms, v = .object ms ∧ fault.FoundIn ms

theorem FoundIn.foundAt {fault : Fault} {ms : Members} (h : fault.FoundIn ms)
    (location : Location) : fault.FoundAt location (.object ms) := by
  cases fault with
  | notAnObject _ => exact h.elim
  | notActions => exact h.elim
  | nestedTooDeep => exact h.elim
  | _ => exact ⟨ms, rfl, h⟩

end Fault

/-! ## Readers of one member -/

namespace Members
variable {ms : Members} {key : String} {fault : Fault}

theorem expect_eq_error {v : Value} :
    expect v = .error fault ↔ fault = .notAnObject v.kind ∧ ∀ ms, v ≠ .object ms := by
  cases v <;> simp [expect, eq_comm]

theorem foundAt_of_expect {v : Value} (h : expect v = .error fault) (location : Location) :
    fault.FoundAt location v := by
  obtain ⟨rfl, hne⟩ := expect_eq_error.mp h
  exact ⟨rfl, hne⟩

theorem required_eq_error :
    ms.required key = .error fault ↔ ms.get? key = none ∧ fault = .missing key := by
  unfold required
  cases ms.get? key <;> simp [eq_comm]

theorem foundIn_of_string (h : ms.string key = .error fault) : fault.FoundIn ms := by
  unfold string at h
  split at h
  · cases h
  · rename_i v hne hkey
    obtain rfl := Except.error.inj h
    exact ⟨v, hkey, fun s hs => hne s hs⟩
  · rename_i hkey
    obtain rfl := Except.error.inj h
    exact hkey

theorem foundIn_of_optionalString (h : ms.optionalString key = .error fault) :
    fault.FoundIn ms := by
  unfold optionalString at h
  split at h
  · cases h
  · cases h
  · cases h
  · rename_i v _ hne hkey
    obtain rfl := Except.error.inj h
    exact ⟨v, hkey, fun s hs => hne s hs⟩

theorem foundIn_of_integer {default : Int32} (h : ms.integer key default = .error fault) :
    fault.FoundIn ms := by
  unfold integer at h
  split at h
  · cases h
  · rename_i x hkey
    split at h
    · cases h
    · rename_i hread
      obtain rfl := Except.error.inj h
      refine ⟨.number x, hkey, ?_⟩
      intro y hy hwhole
      obtain rfl := Value.number.inj hy
      obtain ⟨n, hn⟩ := Binary64.exists_toInt32?_iff.mpr hwhole
      rw [hread] at hn
      cases hn
  · rename_i v hne hkey
    obtain rfl := Except.error.inj h
    exact ⟨v, hkey, fun x hx _ => hne x hx⟩

theorem fault_of_integer {default : Int32} (h : ms.integer key default = .error fault) :
    fault = .notAnInteger key := by
  unfold integer at h
  split at h
  · cases h
  · split at h
    · cases h
    · exact (Except.error.inj h).symm
  · exact (Except.error.inj h).symm

theorem foundIn_of_list (h : ms.list key = .error fault) : fault.FoundIn ms := by
  unfold list at h
  split at h
  · rename_i hkey
    obtain rfl := Except.error.inj h
    exact hkey
  · cases h
  · rename_i v hne hkey
    obtain rfl := Except.error.inj h
    exact ⟨v, hkey, fun items hitems => hne items hitems⟩

section Words
variable {α : Type} [Vocabulary α]

theorem foundIn_of_word (h : (ms.word key : Except Fault α) = .error fault) :
    fault.FoundIn ms := by
  unfold word at h
  split at h
  · rename_i hstring
    obtain rfl := Except.error.inj h
    exact foundIn_of_string hstring
  · rename_i text htext
    split at h
    · cases h
    · rename_i e hread
      obtain rfl := Except.error.inj h
      unfold Vocabulary.read at hread
      split at hread
      · cases hread
      · rename_i hnone
        obtain rfl := Except.error.inj hread
        refine ⟨key, string_eq_ok.mp htext, ?_⟩
        intro hvalid
        obtain ⟨w, hw, hspelling⟩ := List.mem_map.mp hvalid
        exact List.find?_eq_none.mp hnone w hw (beq_iff_eq.mpr hspelling)

theorem foundIn_of_optionalWord
    (h : (ms.optionalWord key : Except Fault (Option α)) = .error fault) : fault.FoundIn ms := by
  unfold optionalWord at h
  split at h
  · cases hword : (ms.word key : Except Fault α) with
    | ok w =>
      rw [hword] at h
      cases h
    | error e =>
      rw [hword] at h
      obtain rfl := Except.error.inj h
      exact foundIn_of_word hword
  · cases h

end Words
end Members

/-! ## Conditions, actions and shapes -/

theorem Operator.foundIn_of_checkValue {operator : Operator} {ms : Members} {fault : Fault}
    (hoperator : ms.get? "operator" = some (.word operator))
    (h : operator.checkValue (ms.get? "value") = .error fault) : fault.FoundIn ms := by
  unfold checkValue at h
  split at h
  · rename_i hmissing
    obtain rfl := Except.error.inj h
    rw [Bool.and_eq_true, Option.isNone_iff_eq_none] at hmissing
    obtain ⟨hrequires, hnone⟩ := hmissing
    refine ⟨hoperator, ?_, ?_, hnone⟩
    · rintro rfl
      cases hrequires
    · rintro rfl
      cases hrequires
  · split at h
    · rename_i hbetween
      split at h
      · cases h
      · rename_i hne
        obtain rfl := Except.error.inj h
        exact ⟨hbetween ▸ hoperator, hne⟩
    · cases h

theorem Condition.foundIn_of_ofMembers {ms : Members} {fault : Fault}
    (h : Condition.ofMembers ms = .error fault) : fault.FoundIn ms := by
  simp only [ofMembers, except_bind_eq_error, except_pure_ne_error, and_false, exists_false,
    or_false] at h
  rcases h with h | ⟨field, -, h | ⟨operator, hoperator, h | ⟨valueType, -, h | ⟨text, -, h⟩⟩⟩⟩
  · exact Members.foundIn_of_string h
  · exact Members.foundIn_of_word h
  · exact Members.foundIn_of_optionalWord h
  · exact Members.foundIn_of_optionalString h
  · exact Operator.foundIn_of_checkValue (Members.word_eq_ok.mp hoperator) h

theorem Action.foundIn_of_ofMembers {ms : Members} {fault : Fault}
    (h : Action.ofMembers ms = .error fault) : fault.FoundIn ms := by
  simp only [ofMembers, except_bind_eq_error, except_pure_ne_error, and_false, exists_false,
    or_false] at h
  rcases h with h | ⟨kind, -, h | ⟨target, -, h | ⟨adjustment, -, h | ⟨message, -, h |
    ⟨severity, -, h⟩⟩⟩⟩⟩
  · exact Members.foundIn_of_word h
  · exact Members.foundIn_of_optionalString h
  · exact Members.foundIn_of_optionalWord h
  · exact Members.foundIn_of_optionalString h
  · exact Members.foundIn_of_optionalWord h
  · exact Members.foundIn_of_optionalString h

theorem Entry.Shape.ofMembers_eq_error {ms : Members} {fault : Fault} :
    Entry.Shape.ofMembers ms = .error fault ↔ fault = .neitherConditionNorGroup ∧
      ¬ ms.HasBoth "op" "conditions" ∧ ¬ ms.HasBoth "field" "operator" := by
  unfold ofMembers Members.HasBoth
  cases ms.contains "op" <;> cases ms.contains "conditions" <;>
    cases ms.contains "field" <;> cases ms.contains "operator" <;> simp [eq_comm]

end Underwriting
