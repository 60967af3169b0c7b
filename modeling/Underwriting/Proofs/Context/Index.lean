import Underwriting.Context.Index
import Underwriting.Proofs.Context.Walk

/-! # Indices and what they are read as

Nine digits cannot make up a number that 32 bits do not hold, so the reading of an index always
comes to its end. It finds the element whose number the segment is, written in the one way in
which numbers are written.
-/
namespace Underwriting

theorem Integer.exists_checked {result : Int} (hlow : 0 ≤ result) (hhigh : result < 2 ^ 31) :
    ∃ n, checked result = .ok n ∧ n.toInt = result := by
  have hrange : -2 ^ 31 ≤ result ∧ result < 2 ^ 31 := ⟨by omega, hhigh⟩
  refine ⟨Int32.ofInt result, ?_, Int32.toInt_ofInt_of_le hrange.1 hrange.2⟩
  rw [checked, toInt32?, if_pos hrange]

namespace Path

/-- The number made up of the digits so far and those that follow. -/
def valueFrom (n : Nat) (cs : List Char) : Nat :=
  cs.foldl (fun n c => n * 10 + (c.toNat - '0'.toNat)) n

/-- As long as there are nine digits at most, no product and no sum is out of range. -/
theorem exists_accumulate {digits : Nat} {n : Int32} {m : Nat} {cs : List Char}
    (hn : n.toInt = m) (hm : m < 10 ^ digits) (hdigits : digits + cs.length ≤ maxIndexDigits) :
    ∃ read, accumulate n cs = .ok read ∧
      read.map Int32.toInt =
        if cs.all Char.isDigit then some (valueFrom m cs : Int) else none := by
  induction cs generalizing digits n m with
  | nil => exact ⟨some n, rfl, congrArg some hn⟩
  | cons c cs ih =>
    rw [accumulate]
    split
    · rename_i hc
      obtain ⟨hdigit, -⟩ := Integer.digitChar_of_isDigit hc
      rw [List.length_cons] at hdigits
      -- the digits that are still to come leave room for one more
      have hpower : 10 ^ (digits + 1) ≤ 10 ^ maxIndexDigits :=
        Nat.pow_le_pow_right (by decide) (by omega)
      have hlimit : 10 ^ maxIndexDigits = 1000000000 := by decide
      rw [Nat.pow_succ] at hpower
      have hproduct : 0 ≤ n.toInt * 10 ∧ n.toInt * 10 < 2 ^ 31 := by omega
      obtain ⟨tens, htens, htensValue⟩ := Integer.exists_checked hproduct.1 hproduct.2
      have hsum : 0 ≤ tens.toInt + (c.toNat - '0'.toNat : Nat) ∧
          tens.toInt + (c.toNat - '0'.toNat : Nat) < 2 ^ 31 := by omega
      obtain ⟨next, hnext, hnextValue⟩ := Integer.exists_checked hsum.1 hsum.2
      have hvalue : next.toInt = (m * 10 + (c.toNat - '0'.toNat) : Nat) := by
        rw [hnextValue, htensValue, hn]
        push_cast
        rfl
      have hless : m * 10 + (c.toNat - '0'.toNat) < 10 ^ (digits + 1) := by
        rw [Nat.pow_succ]
        omega
      obtain ⟨read, hread, hreadValue⟩ := ih hvalue hless (by omega)
      simp only [htens, hnext, List.all_cons, hc, Bool.true_and]
      exact ⟨read, hread, hreadValue⟩
    · rename_i hc
      refine ⟨none, rfl, ?_⟩
      rw [List.all_cons, Bool.eq_false_iff.mpr hc, Bool.false_and]
      rfl

theorem readIndex_eq (segment : String) (size : Nat) :
    readIndex segment size = .ok ((index? segment).filter fun i => i < size) := by
  simp only [readIndex, index?]
  generalize segment.toList = digits
  split
  · rfl
  rename_i hlength
  split
  · rfl
  have hshort : digits.length ≤ maxIndexDigits := by
    simp only [Bool.or_eq_true, decide_eq_true_eq, not_or, not_lt] at hlength
    exact hlength.2
  obtain ⟨read, hread, hvalue⟩ := exists_accumulate (n := 0) (m := 0) Int32.toInt_zero
    (Nat.pow_pos (by decide) : 0 < 10 ^ 0) ((Nat.zero_add _).trans_le hshort)
  rw [hread]
  split at hvalue
  · rename_i hdigits
    obtain ⟨n, rfl, hn⟩ := Option.map_eq_some_iff.mp hvalue
    have hindex : n.toInt = Integer.ofDigits digits := hn
    rw [if_pos hdigits]
    simp only [hindex, Int.toNat_natCast, Nat.cast_le]
    by_cases hsize : size ≤ Integer.ofDigits digits
    · rw [if_pos hsize, Option.filter_some_neg (by simpa using hsize)]
    · rw [if_neg hsize, Option.filter_some_pos (by simpa using hsize)]
  · rename_i hdigits
    rw [Option.map_eq_none_iff.mp hvalue, if_neg hdigits]
    rfl

end Path

/-- The reading of an index comes to its end without a product or a sum that is out of range,
whatever the segment. A step into a list then leads to the element with this index, and in
a list of at most a thousand million elements every element is found under its number in
decimal digits and under nothing else. -/
theorem Value.step_reads_indices_exactly (items : List Value) (segment : String) :
    ∃ index, Path.readIndex segment items.length = .ok index ∧
      (Value.list items).step segment = index.bind (fun i => items[i]?) ∧
      (items.length ≤ 10 ^ 9 →
        ∀ i, index = some i ↔ i < items.length ∧ segment = toString i) := by
  refine ⟨_, Path.readIndex_eq segment items.length, ?_, fun hsize i => ?_⟩
  · rw [step]
    cases Path.index? segment with
    | none => rfl
    | some i =>
      by_cases hi : i < items.length
      · rw [Option.filter_some_pos (by simpa using hi)]
      · rw [Option.filter_some_neg (by simpa using hi)]
        exact List.getElem?_eq_none (not_lt.mp hi)
  · simp only [Option.filter_eq_some_iff, Path.index?_eq_some_iff, decide_eq_true_eq]
    have hlimit : 10 ^ Path.maxIndexDigits = 10 ^ 9 := rfl
    constructor
    · rintro ⟨⟨-, hsegment⟩, hi⟩
      exact ⟨hi, hsegment⟩
    · rintro ⟨hi, hsegment⟩
      exact ⟨⟨by omega, hsegment⟩, hi⟩

/-- In a list of two, the second is found under one, and neither under a padded number. -/
theorem step_second_of_two :
    (Value.list [.null, .bool true]).step "1" = some (.bool true) ∧
      (Value.list [.null, .bool true]).step "01" = none := by
  obtain ⟨index, -, hstep, hexact⟩ := Value.step_reads_indices_exactly [.null, .bool true] "1"
  obtain ⟨padded, -, hpadded, hnone⟩ := Value.step_reads_indices_exactly [.null, .bool true] "01"
  constructor
  · rw [hstep, (hexact (by decide) 1).mpr ⟨by decide, rfl⟩]
    rfl
  · have hmissing : padded = none := by
      refine Option.eq_none_iff_forall_ne_some.mpr fun i hi => ?_
      obtain ⟨hless, hsegment⟩ := (hnone (by decide) i).mp hi
      have htwo : i < 2 := hless
      interval_cases i <;> exact absurd hsegment (by decide)
    rw [hpadded, hmissing]
    rfl

end Underwriting
