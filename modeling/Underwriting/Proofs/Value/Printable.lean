import Mathlib.Data.List.Nodup
import Underwriting.Number.Binary64
import Underwriting.Value.Basic

/-! # Values that have a JSON text

A value has a JSON text when its numbers are finite, nothing in it is unset and the keys of
every object are distinct.
-/
namespace Underwriting

namespace Members

def Distinct (ms : Members) : Prop := (ms.map Prod.fst).Nodup

instance (ms : Members) : Decidable ms.Distinct :=
  inferInstanceAs (Decidable (ms.map Prod.fst).Nodup)

theorem mem_of_get? {ms : Members} {key : String} {v : Value} (h : ms.get? key = some v) :
    (key, v) ∈ ms := by
  induction ms with
  | nil => cases h
  | cons e rest ih =>
    obtain ⟨k, w⟩ := e
    rw [get?] at h
    split at h
    · rename_i hkey
      rw [hkey, Option.some.inj h]
      exact List.mem_cons_self
    · exact List.mem_cons_of_mem _ (ih h)

theorem keys_insert (ms : Members) (key : String) (v : Value) :
    (ms.insert key v).map Prod.fst =
      if key ∈ ms.map Prod.fst then ms.map Prod.fst else ms.map Prod.fst ++ [key] := by
  induction ms with
  | nil => rfl
  | cons e rest ih =>
    obtain ⟨k, w⟩ := e
    rw [insert]
    by_cases hkey : k = key
    · simp [hkey]
    · have hkey' : key ≠ k := Ne.symm hkey
      simp only [if_neg hkey, List.map_cons, ih, List.mem_cons, hkey', false_or]
      split <;> simp

theorem Distinct.insert {ms : Members} (h : ms.Distinct) (key : String) (v : Value) :
    (ms.insert key v).Distinct := by
  rw [Distinct, keys_insert]
  split
  · exact h
  · rename_i hnew
    exact List.nodup_append.mpr ⟨h, List.nodup_singleton key, fun k hk k' hk' => by
      rw [List.mem_singleton.mp hk']
      rintro rfl
      exact hnew hk⟩

theorem mem_insert {ms : Members} {key : String} {v : Value} {e : String × Value}
    (h : e ∈ ms.insert key v) : e = (key, v) ∨ e ∈ ms := by
  induction ms with
  | nil => exact Or.inl (List.mem_singleton.mp h)
  | cons d rest ih =>
    obtain ⟨k, w⟩ := d
    rw [Members.insert] at h
    split at h
    · rename_i hkey
      rcases List.mem_cons.mp h with rfl | h
      · exact Or.inl (by rw [hkey])
      · exact Or.inr (List.mem_cons_of_mem _ h)
    · rcases List.mem_cons.mp h with rfl | h
      · exact Or.inr List.mem_cons_self
      · exact (ih h).imp_right (List.mem_cons_of_mem _)

theorem insert_of_notMem {ms : Members} {key : String} (v : Value)
    (h : key ∉ ms.map Prod.fst) : ms.insert key v = ms ++ [(key, v)] := by
  induction ms with
  | nil => rfl
  | cons e rest ih =>
    obtain ⟨k, w⟩ := e
    rw [List.map_cons, List.mem_cons, not_or] at h
    rw [Members.insert, if_neg (Ne.symm h.1), ih h.2, List.cons_append]

section OfList
variable (es : List (String × Value))

theorem distinct_ofList : (ofList es).Distinct := by
  have hfold (es : List (String × Value)) (ms : Members) (h : ms.Distinct) :
      (es.foldl (fun ms e => ms.insert e.1 e.2) ms).Distinct := by
    induction es generalizing ms with
    | nil => exact h
    | cons e es ih => exact ih _ (h.insert e.1 e.2)
  exact hfold es [] List.nodup_nil

theorem mem_of_mem_ofList {e : String × Value} (h : e ∈ ofList es) : e ∈ es := by
  have hfold (es : List (String × Value)) (ms : Members)
      (h : e ∈ es.foldl (fun ms e => ms.insert e.1 e.2) ms) : e ∈ ms ∨ e ∈ es := by
    induction es generalizing ms with
    | nil => exact Or.inl h
    | cons d es ih =>
      rcases ih _ h with h | h
      · rcases mem_insert h with rfl | h
        · exact Or.inr List.mem_cons_self
        · exact Or.inl h
      · exact Or.inr (List.mem_cons_of_mem _ h)
  rcases hfold es [] h with h | h
  · cases h
  · exact h

theorem ofList_of_distinct {es : List (String × Value)} (h : Distinct es) : ofList es = es := by
  have hfold (es : List (String × Value)) (ms : Members) (h : Distinct (ms ++ es)) :
      es.foldl (fun ms e => ms.insert e.1 e.2) ms = ms ++ es := by
    induction es generalizing ms with
    | nil => exact (List.append_nil ms).symm
    | cons e es ih =>
      have hnew : e.1 ∉ ms.map Prod.fst := by
        intro hmem
        rw [Distinct, List.map_append, List.map_cons] at h
        exact (List.nodup_append.mp h).2.2 e.1 hmem e.1 List.mem_cons_self rfl
      rw [List.foldl_cons, insert_of_notMem _ hnew]
      have hsplit : ms ++ [(e.1, e.2)] ++ es = ms ++ e :: es := by simp
      rw [ih _ (by rw [hsplit]; exact h), hsplit]
  exact hfold es [] h

end OfList
end Members

/-- A value with a JSON text whose lists and objects nest at most this many levels deep. -/
inductive Value.PrintableWithin : Nat → Value → Prop where
  | null {levels : Nat} : PrintableWithin levels .null
  | bool {levels : Nat} {b : Bool} : PrintableWithin levels (.bool b)
  | number {levels : Nat} {x : Float} :
    Binary64.isFinite x = true → PrintableWithin levels (.number x)
  | string {levels : Nat} {s : String} : PrintableWithin levels (.string s)
  | list {levels : Nat} {vs : List Value} :
    (∀ v ∈ vs, PrintableWithin levels v) → PrintableWithin (levels + 1) (.list vs)
  | object {levels : Nat} {ms : Members} :
    ms.Distinct → (∀ e ∈ ms, PrintableWithin levels e.2) →
      PrintableWithin (levels + 1) (.object ms)

/-- A value with a JSON text, however deep its lists and objects nest. -/
def Value.Printable (v : Value) : Prop := ∃ levels, v.PrintableWithin levels

namespace Value.PrintableWithin
variable {levels : Nat} {v : Value}

theorem mono (h : v.PrintableWithin levels) {more : Nat} (hle : levels ≤ more) :
    v.PrintableWithin more := by
  induction h generalizing more with
  | null => exact .null
  | bool => exact .bool
  | number hfinite => exact .number hfinite
  | string => exact .string
  | list _ ih =>
    obtain ⟨more, rfl⟩ : ∃ n, more = n + 1 := ⟨more - 1, by omega⟩
    exact .list fun v hv => ih v hv (by omega)
  | object hdistinct _ ih =>
    obtain ⟨more, rfl⟩ : ∃ n, more = n + 1 := ⟨more - 1, by omega⟩
    exact .object hdistinct fun e he => ih e he (by omega)

theorem exists_of_list {vs : List Value} (h : (Value.list vs).PrintableWithin levels) :
    ∃ inner, levels = inner + 1 ∧ ∀ v ∈ vs, v.PrintableWithin inner := by
  cases h with
  | list hitems => exact ⟨_, rfl, hitems⟩

theorem exists_of_object {ms : Members} (h : (Value.object ms).PrintableWithin levels) :
    ∃ inner, levels = inner + 1 ∧ ∀ key v, ms.get? key = some v → v.PrintableWithin inner := by
  cases h with
  | object _ hmembers =>
    exact ⟨_, rfl, fun key v hget => hmembers (key, v) (Members.mem_of_get? hget)⟩

end Value.PrintableWithin

end Underwriting
