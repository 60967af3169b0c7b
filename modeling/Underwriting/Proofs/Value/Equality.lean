import Underwriting.Proofs.Value.Order
import Underwriting.Value.Equality

/-! # Equality and the order of members

Whether a value equals another does not depend on the order in which the members of either
stand. Each side is changed while the other stays as it is, whatever keys that one may have.
-/
namespace Underwriting

namespace Members
variable {ms others : Members}

theorem mem_keys_iff {key : String} : key ∈ ms.map Prod.fst ↔ (ms.get? key).isSome = true := by
  induction ms with
  | nil => simp [get?]
  | cons e ms ih =>
    rw [List.map_cons, List.mem_cons, get?, ih]
    by_cases hkey : e.1 = key
    · simp [hkey]
    · simp [hkey, Ne.symm hkey]

theorem Same.length_eq (h : ms.Same others) (hms : ms.Distinct) (hothers : others.Distinct) :
    ms.length = others.length := by
  have hkeys : (ms.map Prod.fst).Perm (others.map Prod.fst) := by
    refine (List.perm_ext_iff_of_nodup hms hothers).mpr fun key => ?_
    rw [mem_keys_iff, mem_keys_iff]
    exact Option.Rel.casesOn (h key) (fun _ => Iff.rfl) Iff.rfl
  simpa using hkeys.length_eq

end Members

namespace Value

/-! ## The second side -/

mutual
theorem equals_same : (a : Value) → {b c : Value} → b.Same c → a.equals b = a.equals c
  | a, _, _, .atom _ => rfl
  | .list as, _, _, .list h => by
    rw [equals, equals, itemsEqual_same as h]
  | .object as, _, _, .object hb hc h => by
    rw [equals, equals, Members.Same.length_eq h hb hc, membersEqual_same as h]
  | .unset, _, _, .list _ | .null, _, _, .list _ | .bool _, _, _, .list _
  | .number _, _, _, .list _ | .string _, _, _, .list _ | .object _, _, _, .list _ => rfl
  | .unset, _, _, .object _ _ _ | .null, _, _, .object _ _ _ | .bool _, _, _, .object _ _ _
  | .number _, _, _, .object _ _ _ | .string _, _, _, .object _ _ _
  | .list _, _, _, .object _ _ _ => rfl

theorem itemsEqual_same : (as : List Value) → {bs cs : List Value} →
    List.Forall₂ Same bs cs → itemsEqual as bs = itemsEqual as cs
  | [], _, _, .nil => rfl
  | [], _, _, .cons _ _ => rfl
  | _ :: _, _, _, .nil => rfl
  | a :: as, _, _, .cons hfirst hothers => by
    rw [itemsEqual, itemsEqual, equals_same a hfirst, itemsEqual_same as hothers]

theorem membersEqual_same : (as : List (String × Value)) → {ms others : Members} →
    ms.Same others → membersEqual as ms = membersEqual as others
  | [], _, _, _ => rfl
  | (key, a) :: as, ms, others, h => by
    rw [membersEqual, membersEqual, membersEqual_same as h]
    congr 1
    have hkey := h key
    generalize ms.get? key = v at hkey
    generalize others.get? key = w at hkey
    cases hkey with
    | none => rfl
    | some hsame => exact equals_same a hsame
end

/-! ## The first side -/

theorem membersEqual_eq_true_iff {ms others : Members} (hms : ms.Distinct) :
    membersEqual ms others = true ↔
      ∀ key v, ms.get? key = some v → ∃ w, others.get? key = some w ∧ v.equals w = true := by
  have hmem : ∀ entries : List (String × Value), membersEqual entries others = true ↔
      ∀ e ∈ entries, ∃ w, others.get? e.1 = some w ∧ e.2.equals w = true := by
    intro entries
    induction entries with
    | nil => simp [membersEqual]
    | cons e entries ih =>
      rw [membersEqual, Bool.and_eq_true, ih, List.forall_mem_cons]
      cases others.get? e.1 <;> simp
  rw [hmem]
  simp only [Members.get?_eq_some_iff hms, Prod.forall]

mutual
theorem same_equals : (c : Value) → {a b : Value} → a.Same b → a.equals c = b.equals c
  | _, _, _, .atom _ => rfl
  | .list cs, _, _, .list h => by
    rw [equals, equals, same_itemsEqual cs h]
  | .object cs, _, _, @Same.object ms others hms hothers h => by
    have hmembers : membersEqual ms cs = membersEqual others cs := by
      rw [Bool.eq_iff_iff, membersEqual_eq_true_iff hms, membersEqual_eq_true_iff hothers]
      refine forall_congr' fun key => ?_
      have hkey := h key
      generalize ms.get? key = v at hkey
      generalize others.get? key = w at hkey
      cases hkey with
      | none => exact Iff.rfl
      | @some v w hsame =>
        have hequal (x : Value) (hx : Members.get? cs key = some x) : v.equals x = w.equals x :=
          same_equals_member cs _ (Members.mem_of_get? hx) hsame
        simp only [Option.some.injEq, forall_eq']
        refine exists_congr fun x => and_congr_right fun hx => ?_
        rw [hequal x hx]
    rw [equals, equals, Members.Same.length_eq h hms hothers, hmembers]
  | .unset, _, _, .list _ | .null, _, _, .list _ | .bool _, _, _, .list _
  | .number _, _, _, .list _ | .string _, _, _, .list _ | .object _, _, _, .list _ => rfl
  | .unset, _, _, .object _ _ _ | .null, _, _, .object _ _ _ | .bool _, _, _, .object _ _ _
  | .number _, _, _, .object _ _ _ | .string _, _, _, .object _ _ _
  | .list _, _, _, .object _ _ _ => rfl

theorem same_itemsEqual : (cs : List Value) → {as bs : List Value} →
    List.Forall₂ Same as bs → itemsEqual as cs = itemsEqual bs cs
  | [], _, _, .nil => rfl
  | [], _, _, .cons _ _ => rfl
  | _ :: _, _, _, .nil => rfl
  | c :: cs, _, _, .cons hfirst hothers => by
    rw [itemsEqual, itemsEqual, same_equals c hfirst, same_itemsEqual cs hothers]

theorem same_equals_member : (cs : List (String × Value)) → ∀ e ∈ cs, {a b : Value} →
    a.Same b → a.equals e.2 = b.equals e.2
  | (_, c) :: _, _, .head _, _, _, h => same_equals c h
  | _ :: cs, e, .tail _ he, _, _, h => same_equals_member cs e he h
end

end Value
end Underwriting
