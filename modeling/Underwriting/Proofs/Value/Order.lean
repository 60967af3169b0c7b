import Mathlib.Data.List.Forall2
import Mathlib.Data.Option.Defs
import Underwriting.Proofs.Value.Printable

/-! # Values up to the order of members

An object is known by what its keys lead to, at any depth. Two values may differ in the order
in which members stand and still be the same: nothing that looks at kinds and keys alone tells
them apart.
-/
namespace Underwriting

def Value.IsAtom : Value → Prop
  | list _ => False
  | object _ => False
  | _ => True

/-- Values that differ in the order of members at most. The keys of their objects are
distinct. -/
inductive Value.Same : Value → Value → Prop where
  | atom {v : Value} : v.IsAtom → Same v v
  | list {items others : List Value} :
    List.Forall₂ Same items others → Same (.list items) (.list others)
  | object {ms others : Members} :
    ms.Distinct → others.Distinct →
      (∀ key, Option.Rel Same (ms.get? key) (others.get? key)) →
      Same (.object ms) (.object others)

/-- Members that differ in their order at most, and in that of the members below them. -/
def Members.Same (ms others : Members) : Prop :=
  ∀ key, Option.Rel Value.Same (ms.get? key) (others.get? key)

namespace Value.Same
variable {v w : Value}

theorem kind_eq (h : v.Same w) : v.kind = w.kind := by
  cases h <;> rfl

theorem exists_of_list {items : List Value} (h : (Value.list items).Same w) :
    ∃ others, w = .list others ∧ List.Forall₂ Same items others := by
  cases h with
  | atom hatom => exact hatom.elim
  | list hitems => exact ⟨_, rfl, hitems⟩

theorem exists_of_object {ms : Members} (h : (Value.object ms).Same w) :
    ∃ others, w = .object others ∧ ms.Same others := by
  cases h with
  | atom hatom => exact hatom.elim
  | object _ _ hmembers => exact ⟨_, rfl, hmembers⟩

mutual
/-- Values that are the same as a third one are the same as each other. -/
theorem right : (v : Value) → {w x : Value} → v.Same w → v.Same x → w.Same x
  | _, _, _, .atom h, .atom _ => .atom h
  | .list items, _, _, .list h, .list h' => .list (rightItems items h h')
  | .object ms, _, _, @object _ ws _ hws h, @object _ xs _ hxs h' => by
    refine .object hws hxs fun key => ?_
    have hw := h key
    have hx := h' key
    cases hget : Members.get? ms key with
    | none =>
      rw [hget] at hw hx
      generalize Members.get? ws key = w at hw
      generalize Members.get? xs key = x at hx
      cases hw
      cases hx
      exact .none
    | some v =>
      rw [hget] at hw hx
      generalize Members.get? ws key = w at hw
      generalize Members.get? xs key = x at hx
      cases hw with
      | some hw =>
        cases hx with
        | some hx => exact .some (rightMember ms _ (Members.mem_of_get? hget) hw hx)

theorem rightItems : (items : List Value) → {ws xs : List Value} →
    List.Forall₂ Same items ws → List.Forall₂ Same items xs → List.Forall₂ Same ws xs
  | [], _, _, .nil, .nil => .nil
  | v :: items, _, _, .cons hw hws, .cons hx hxs =>
    .cons (right v hw hx) (rightItems items hws hxs)

theorem rightMember : (ms : List (String × Value)) → ∀ e ∈ ms, {w x : Value} →
    e.2.Same w → e.2.Same x → w.Same x
  | (_, v) :: _, _, .head _, _, _, hw, hx => right v hw hx
  | _ :: ms, e, .tail _ he, _, _, hw, hx => rightMember ms e he hw hx
end

end Value.Same

namespace Members
variable {ms others : Members}

theorem get?_eq_some_iff (hms : ms.Distinct) {key : String} {v : Value} :
    ms.get? key = some v ↔ (key, v) ∈ ms := by
  refine ⟨mem_of_get?, fun hmem => ?_⟩
  induction ms with
  | nil => cases hmem
  | cons e rest ih =>
    obtain ⟨hnew, hrest⟩ := List.nodup_cons.mp hms
    rw [get?]
    rcases List.mem_cons.mp hmem with rfl | hmem
    · rw [if_pos rfl]
    · have hne : e.1 ≠ key := by
        rintro rfl
        exact hnew (List.mem_map.mpr ⟨_, hmem, rfl⟩)
      rw [if_neg hne]
      exact ih hrest hmem

theorem Distinct.perm (hms : ms.Distinct) (h : ms.Perm others) : others.Distinct :=
  (h.map Prod.fst).nodup_iff.mp hms

/-- Distinct keys lead to the same values in whatever order they stand. -/
theorem get?_perm (hms : ms.Distinct) (h : ms.Perm others) (key : String) :
    ms.get? key = others.get? key := by
  apply Option.ext
  intro v
  rw [get?_eq_some_iff hms, get?_eq_some_iff (hms.perm h)]
  exact h.mem_iff

theorem Distinct.of_forall₂ {R : Value → Value → Prop} (hms : ms.Distinct)
    (h : List.Forall₂ (fun e d => e.1 = d.1 ∧ R e.2 d.2) ms others) : others.Distinct := by
  have hkeys : others.map Prod.fst = ms.map Prod.fst := by
    clear hms
    induction h with
    | nil => rfl
    | cons hfirst _ ih => rw [List.map_cons, List.map_cons, hfirst.1, ih]
  rw [Distinct, hkeys]
  exact hms

theorem same_of_forall₂
    (h : List.Forall₂ (fun e d => e.1 = d.1 ∧ Value.Same e.2 d.2) ms others) : ms.Same others := by
  intro key
  induction h with
  | nil => exact .none
  | @cons e d rest rest' hfirst _ ih =>
    obtain ⟨hkey, hvalue⟩ := hfirst
    rw [get?, get?, ← hkey]
    split
    · exact .some hvalue
    · exact ih

end Members

theorem Value.PrintableWithin.same_self {levels : Nat} {v : Value}
    (h : v.PrintableWithin levels) : v.Same v := by
  induction h with
  | list _ ih => exact .list (List.forall₂_same.mpr ih)
  | @object _ ms hdistinct _ ih =>
    refine .object hdistinct hdistinct fun key => ?_
    cases hget : ms.get? key with
    | none => exact .none
    | some v => exact .some (ih (key, v) (Members.mem_of_get? hget))
  | _ => exact .atom trivial

end Underwriting
