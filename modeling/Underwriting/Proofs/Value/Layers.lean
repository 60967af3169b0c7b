import Underwriting.Proofs.Number.Binary64
import Underwriting.Proofs.Value.Printable

/-! # Layers of values

The depth of a value is the number of lists and objects inside one another. To be no deeper
than some levels is one of the properties that a list or an object has one level above what
is in it; to have a JSON text within some levels is another. What holds of all such
properties is stated once, for any of them.
-/
namespace Underwriting.Value

mutual
def depth : Value → Nat
  | .list items => depthOfItems items + 1
  | .object members => depthOfMembers members + 1
  | _ => 0

def depthOfItems : List Value → Nat
  | [] => 0
  | v :: vs => max (depth v) (depthOfItems vs)

def depthOfMembers : List (String × Value) → Nat
  | [] => 0
  | (_, v) :: ms => max (depth v) (depthOfMembers ms)
end

theorem depthOfItems_le {items : List Value} {n : Nat} :
    depthOfItems items ≤ n ↔ ∀ v ∈ items, v.depth ≤ n := by
  induction items with
  | nil => simp [depthOfItems]
  | cons v vs ih => rw [depthOfItems, Nat.max_le, ih, List.forall_mem_cons]

theorem depthOfMembers_le {ms : Members} {n : Nat} :
    depthOfMembers ms ≤ n ↔ ∀ e ∈ ms, e.2.depth ≤ n := by
  induction ms with
  | nil => simp [depthOfMembers]
  | cons e ms ih =>
    obtain ⟨key, v⟩ := e
    rw [depthOfMembers, Nat.max_le, ih, List.forall_mem_cons]

/-- A property of values within some levels. It does not depend on texts and truth values,
nor on integers of 32 bits, and takes a level for each list and object. -/
structure Layered (P : Nat → Value → Prop) : Prop where
  null (levels : Nat) : P levels .null
  bool (levels : Nat) (b : Bool) : P levels (.bool b)
  integer (levels : Nat) (n : Int32) : P levels (.number (Binary64.ofInt32 n))
  string (levels : Nat) (s : String) : P levels (.string s)
  list {levels : Nat} {items : List Value} :
    (∀ v ∈ items, P levels v) → P (levels + 1) (.list items)
  object {levels : Nat} {ms : Members} :
    ms.Distinct → (∀ e ∈ ms, P levels e.2) → P (levels + 1) (.object ms)
  exists_of_list {levels : Nat} {items : List Value} : P levels (.list items) →
    ∃ inner, levels = inner + 1 ∧ ∀ v ∈ items, P inner v
  exists_of_object {levels : Nat} {ms : Members} : P levels (.object ms) →
    ∃ inner, levels = inner + 1 ∧ ∀ key v, ms.get? key = some v → P inner v

theorem layered_printable : Layered PrintableWithin where
  null _ := .null
  bool _ _ := .bool
  integer _ n := .number (Binary64.isFinite_ofInt32 n)
  string _ _ := .string
  list := .list
  object := .object
  exists_of_list := PrintableWithin.exists_of_list
  exists_of_object := PrintableWithin.exists_of_object

theorem layered_depth : Layered fun levels v => v.depth ≤ levels where
  null _ := Nat.zero_le _
  bool _ _ := Nat.zero_le _
  integer _ _ := Nat.zero_le _
  string _ _ := Nat.zero_le _
  list h := Nat.succ_le_succ (depthOfItems_le.mpr h)
  object _ h := Nat.succ_le_succ (depthOfMembers_le.mpr h)
  exists_of_list {levels items} h := by
    rw [depth] at h
    refine ⟨levels - 1, by omega, ?_⟩
    exact depthOfItems_le.mp (by omega)
  exists_of_object {levels ms} h := by
    rw [depth] at h
    refine ⟨levels - 1, by omega, ?_⟩
    intro key v hget
    exact depthOfMembers_le.mp (show depthOfMembers ms ≤ levels - 1 by omega) (key, v)
      (Members.mem_of_get? hget)

/-! ## Depth and printing -/

theorem PrintableWithin.depth_le {levels : Nat} {v : Value} (h : v.PrintableWithin levels) :
    v.depth ≤ levels := by
  induction h with
  | null => exact layered_depth.null _
  | bool => exact layered_depth.bool _ _
  | number _ => exact Nat.zero_le _
  | string => exact layered_depth.string _ _
  | list _ ih => exact layered_depth.list ih
  | object hdistinct _ ih => exact layered_depth.object hdistinct ih

/-- No levels but those of its own depth are needed for a value. -/
theorem PrintableWithin.within_depth {levels : Nat} {v : Value} (h : v.PrintableWithin levels) :
    v.PrintableWithin v.depth := by
  induction h with
  | null => exact .null
  | bool => exact .bool
  | number hfinite => exact .number hfinite
  | string => exact .string
  | list _ ih =>
    exact .list fun v hv => (ih v hv).mono (depthOfItems_le.mp (Nat.le_refl _) v hv)
  | object hdistinct _ ih =>
    exact .object hdistinct fun e he => (ih e he).mono (depthOfMembers_le.mp (Nat.le_refl _) e he)

theorem printableWithin_iff {levels : Nat} {v : Value} :
    v.PrintableWithin levels ↔ v.Printable ∧ v.depth ≤ levels := by
  constructor
  · intro h
    exact ⟨⟨levels, h⟩, h.depth_le⟩
  · rintro ⟨⟨enough, h⟩, hle⟩
    exact h.within_depth.mono hle

end Underwriting.Value
