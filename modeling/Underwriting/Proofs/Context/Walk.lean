import Underwriting.Context.Walk
import Underwriting.Proofs.Context.Writes
import Underwriting.Proofs.Value.Printable
import Underwriting.Proofs.Number.Numeral

/-! # The walk along a path

The walk from dot to dot takes one step for each text between the dots, in turn, and never cuts
out a text that would start behind the end of the path. So a path may be split anywhere at a
dot: the rest of it is resolved from the value that the first part leads to.
-/
namespace Underwriting

/-! ## Segments -/

namespace Path

theorem split_eq_splitOn (cs : List Char) : split cs = cs.splitOn '.' := by
  induction cs with
  | nil => rfl
  | cons c cs ih =>
    obtain ⟨segment, rest, hsplit⟩ := List.exists_cons_of_ne_nil (split_ne_nil cs)
    rw [List.splitOn_cons_eq_if_modifyHead, ← ih]
    by_cases hc : c = '.'
    · subst hc
      rw [split_dot, if_pos (by decide)]
    · rw [split_of_ne_dot hc hsplit, if_neg (by simpa using hc), hsplit, List.modifyHead_cons]

/-- The segments behind a dot. At the end of the path there are none. -/
def behind (path : List Char) (dot : Option Nat) : List String :=
  dot.elim [] fun dot => (split (path.drop (dot + 1))).map String.ofList

/-- What is cut out at a position of the path is the first segment behind it. -/
theorem exists_part {path : List Char} {start : Nat} (h : start ≤ path.length) :
    ∃ segment, Text.part path start (Text.find? '.' path start) = .ok segment ∧
      (split (path.drop start)).map String.ofList =
        String.ofList segment :: behind path (Text.find? '.' path start) := by
  unfold Text.part Text.find? behind
  rw [if_neg (Nat.not_lt.mpr h)]
  cases hdot : (path.drop start).idxOf? '.' with
  | none =>
    have hnone : '.' ∉ path.drop start := List.idxOf?_eq_none_iff.mp hdot
    refine ⟨path.drop start, rfl, ?_⟩
    rw [split_eq_splitOn, List.splitOn_eq_singleton hnone]
    rfl
  | some k =>
    obtain ⟨hlt, hk, hbefore⟩ := List.idxOf?_eq_some_iff.mp hdot
    have hrest : path.drop start =
        (path.drop start).take k ++ '.' :: path.drop (start + k + 1) := by
      rw [← hk, Nat.add_assoc, ← List.drop_drop, List.getElem_cons_drop, List.take_append_drop]
    have hnone : '.' ∉ (path.drop start).take k := by
      intro hmem
      obtain ⟨j, hj, hjdot⟩ := List.mem_iff_getElem.mp hmem
      rw [List.getElem_take] at hjdot
      exact hbefore j (List.length_take_le .. |>.trans_lt' hj) hjdot
    refine ⟨(path.drop start).take k, ?_, ?_⟩
    · simp only [Option.map_some, Nat.add_sub_cancel_left]
    · have hsplit := split_append_dot hnone (path.drop (start + k + 1))
      rw [← hrest] at hsplit
      rw [hsplit]
      rfl

/-- Behind every dot of the path the walk follows the segments that are left. -/
theorem walk_eq_follow {path : List Char} (current : Option Value) (dot : Option Nat)
    (h : ∀ i, dot = some i → i < path.length) :
    walk path current dot = .ok (current.bind fun v => v.follow (behind path dot)) := by
  fun_induction walk path current dot with
  | case1 v dot next e he =>
    obtain ⟨segment, hpart, -⟩ := exists_part (h dot rfl)
    rw [hpart] at he
    cases he
  | case2 v dot next segment hsegment ih =>
    obtain ⟨first, hpart, hrest⟩ := exists_part (h dot rfl)
    obtain rfl : first = segment := Except.ok.inj (hpart.symm.trans hsegment)
    have hbehind : behind path (some dot) = String.ofList first :: behind path next := hrest
    rw [ih fun i hi => (Text.lt_of_find? hi).2, hbehind]
    rfl
  | case3 dot current hend =>
    cases current with
    | none => rfl
    | some v =>
      cases dot with
      | none => rw [Option.bind_some, behind, Option.elim, Value.follow_nil]
      | some i => exact (hend v i rfl rfl).elim

/-! ## Indices -/

theorem length_toDigits_le_iff (i : Nat) :
    (Nat.toDigits 10 i).length ≤ maxIndexDigits ↔ i < 10 ^ maxIndexDigits :=
  Nat.length_toDigits_le_iff (by decide) (by decide)

theorem index?_toString {i : Nat} (h : i < 10 ^ maxIndexDigits) : index? (toString i) = some i := by
  have hdigits : (Nat.toDigits 10 i).all Char.isDigit = true :=
    List.all_eq_true.mpr fun c hc => Nat.isDigit_of_mem_toDigits (by decide) (by decide) hc
  have hzero : ¬ ((Nat.toDigits 10 i).head? = some '0' ∧ (Nat.toDigits 10 i).length > 1) := by
    rintro ⟨hhead, hlong⟩
    rcases Nat.eq_zero_or_pos i with rfl | hpos
    · exact absurd hlong (by decide)
    · exact Integer.toDigits_head?_ne_zero hpos hhead
  have hlength : ¬ ((Nat.toDigits 10 i).isEmpty ||
      decide ((Nat.toDigits 10 i).length > maxIndexDigits)) = true := by
    have hshort := (length_toDigits_le_iff i).mpr h
    simp [Nat.toDigits_ne_nil, hshort]
  rw [Nat.toString_eq_ofList_toDigits]
  simp only [index?, String.toList_ofList]
  rw [if_neg hlength, if_neg hzero, if_pos hdigits]
  exact congrArg some (Integer.ofDigits_padded 0 i)

theorem index?_eq_some_iff {segment : String} {i : Nat} :
    index? segment = some i ↔ i < 10 ^ maxIndexDigits ∧ segment = toString i := by
  refine ⟨fun h => ?_, fun ⟨hlt, hsegment⟩ => hsegment ▸ index?_toString hlt⟩
  simp only [index?] at h
  split at h
  · cases h
  rename_i hlength
  split at h
  · cases h
  rename_i hzero
  split at h
  · rename_i hdigits
    obtain rfl := Option.some.inj h
    simp only [Bool.or_eq_true, List.isEmpty_iff, decide_eq_true_eq, not_or, not_lt] at hlength
    obtain ⟨hne, hshort⟩ := hlength
    have hcanonical : Nat.toDigits 10 (Integer.ofDigits segment.toList) = segment.toList := by
      refine Integer.toDigits_ofDigits hne (List.all_eq_true.mp hdigits) fun hhead => ?_
      have hone : segment.toList.length ≤ 1 := not_lt.mp fun hlong => hzero ⟨hhead, hlong⟩
      obtain ⟨c, hc⟩ := List.length_eq_one_iff.mp
        (Nat.le_antisymm hone (List.length_pos_iff.mpr hne))
      rw [hc] at hhead ⊢
      rw [Option.some.inj hhead]
    rw [Nat.toString_eq_ofList_toDigits, ← length_toDigits_le_iff, hcanonical,
      String.ofList_toList]
    exact ⟨hshort, rfl⟩
  · cases h

end Path

/-! ## Steps -/

namespace Value

/-- The values in which every list has at most so many elements. -/
inductive ListsWithin (size : Nat) : Value → Prop where
  | unset : ListsWithin size .unset
  | null : ListsWithin size .null
  | bool {b : Bool} : ListsWithin size (.bool b)
  | number {x : Float} : ListsWithin size (.number x)
  | string {s : String} : ListsWithin size (.string s)
  | list {items : List Value} :
    items.length ≤ size → (∀ v ∈ items, ListsWithin size v) → ListsWithin size (.list items)
  | object {ms : Members} : (∀ e ∈ ms, ListsWithin size e.2) → ListsWithin size (.object ms)

/-- The member under a key, or the element whose index is written like this. -/
def child? : Value → String → Option Value
  | .object ms, key => Members.get? ms key
  | .list items, segment =>
    ((List.range items.length).find? fun i => toString i = segment).bind fun i => items[i]?
  | _, _ => none

def descend (current : Option Value) (segment : String) : Option Value :=
  current.bind fun v => v.child? segment

theorem step_eq_child? {v : Value} (h : v.ListsWithin (10 ^ 9)) (segment : String) :
    v.step segment = v.child? segment := by
  cases h with
  | @list items hsize _ =>
    have hindex (i : Nat) (hi : i < items.length) : Path.index? (toString i) = some i :=
      Path.index?_toString (Nat.lt_of_lt_of_le hi hsize)
    have hfind : (List.range items.length).find? (fun i => toString i = segment) =
        (Path.index? segment).filter fun i => i < items.length := by
      apply Option.ext
      intro i
      simp only [List.find?_range_eq_some, Option.filter_eq_some_iff, List.mem_range,
        decide_eq_true_eq]
      constructor
      · rintro ⟨rfl, hi, -⟩
        exact ⟨hindex i hi, hi⟩
      · rintro ⟨hsegment, hi⟩
        obtain ⟨-, rfl⟩ := Path.index?_eq_some_iff.mp hsegment
        refine ⟨rfl, hi, fun j hj => ?_⟩
        simpa using Nat.ne_of_lt hj
    rw [step, child?, hfind]
    cases Path.index? segment with
    | none => rfl
    | some i =>
      by_cases hi : i < items.length
      · rw [Option.filter_some_pos (by simpa using hi)]
      · rw [Option.filter_some_neg (by simpa using hi)]
        exact List.getElem?_eq_none (not_lt.mp hi)
  | _ => rfl

theorem ListsWithin.of_child? {size : Nat} {v w : Value} {segment : String}
    (h : v.ListsWithin size) (hchild : v.child? segment = some w) : w.ListsWithin size := by
  cases h with
  | list _ hitems =>
    obtain ⟨i, -, hi⟩ := Option.bind_eq_some_iff.mp hchild
    exact hitems w (List.mem_of_getElem? hi)
  | object hmembers => exact hmembers (segment, w) (Members.mem_of_get? hchild)
  | _ => cases hchild

theorem foldl_descend_none (segments : List String) : segments.foldl descend none = none := by
  induction segments with
  | nil => rfl
  | cons segment segments ih => exact ih

theorem follow_eq_foldl {v : Value} (h : v.ListsWithin (10 ^ 9)) (segments : List String) :
    v.follow segments = segments.foldl descend (some v) := by
  induction segments generalizing v with
  | nil => exact follow_nil v
  | cons segment segments ih =>
    have hstep : descend (some v) segment = v.child? segment := rfl
    rw [follow, step_eq_child? h, List.foldl_cons, hstep]
    cases hchild : v.child? segment with
    | none => exact (foldl_descend_none segments).symm
    | some w => exact ih (h.of_child? hchild)

end Value

/-! ## Paths -/

namespace Members
variable (context : Members)

theorem walk_eq_resolve (path : String) : context.walk path = .ok (context.resolve path) := by
  obtain ⟨segment, hpart, hsegments⟩ := Path.exists_part (Nat.zero_le path.toList.length)
  have hbehind := Path.walk_eq_follow (context.get? (String.ofList segment))
    (Text.find? '.' path.toList 0) fun i hi => (Text.lt_of_find? hi).2
  have hpath : Path.segments path =
      String.ofList segment :: Path.behind path.toList (Text.find? '.' path.toList 0) := hsegments
  simp only [walk, hpart, hbehind, resolve, hpath]
  rfl

variable {context}

/-- The walk along a path never cuts out a text that would start behind the end, and finds the
value that the path resolves to. That is reached by one step for each text between the dots, and
a path goes on behind a dot from what leads up to the dot. -/
theorem resolve_eq_foldl (h : (Value.object context).ListsWithin (10 ^ 9)) (path : String) :
    context.walk path = .ok (context.resolve path) ∧
      context.resolve path = ((path.toList.splitOn '.').map String.ofList).foldl Value.descend
        (some (.object context)) ∧
      ∀ rest : String, context.resolve (path ++ "." ++ rest) =
        ((rest.toList.splitOn '.').map String.ofList).foldl Value.descend
          (context.resolve path) := by
  have hfold (p : String) : context.resolve p =
      ((p.toList.splitOn '.').map String.ofList).foldl Value.descend (some (.object context)) := by
    rw [resolve, Value.follow_eq_foldl h, Path.segments, Path.split_eq_splitOn]
  refine ⟨context.walk_eq_resolve path, hfold path, fun rest => ?_⟩
  have hpath : (path ++ "." ++ rest).toList = path.toList ++ '.' :: rest.toList := by
    simp
  rw [hfold, hfold, hpath, List.splitOn_append_cons_self, List.map_append, List.foldl_append]

def surveyed : Members :=
  [("risk", .object
    [("locations", .list [.object [("", .null), ("tiv", .bool true)], .string "unsurveyed"])])]

theorem listsWithin_surveyed : (Value.object surveyed).ListsWithin (10 ^ 9) := by
  refine .object ?_
  simp only [surveyed, List.forall_mem_singleton]
  refine .object ?_
  simp only [List.forall_mem_singleton]
  refine .list (by decide) ?_
  simp only [List.forall_mem_cons]
  refine ⟨.object ?_, .string, by simp⟩
  simp only [List.forall_mem_cons]
  exact ⟨.null, .bool, by simp⟩

theorem walk_surveyed :
    surveyed.walk "risk.locations.0." = .ok (some .null) ∧
      surveyed.walk "risk..locations" = .ok none ∧
      surveyed.resolve ("risk.locations" ++ "." ++ "0.tiv") = some (.bool true) := by
  obtain ⟨htrailing, -, -⟩ := resolve_eq_foldl listsWithin_surveyed "risk.locations.0."
  obtain ⟨hdoubled, -, -⟩ := resolve_eq_foldl listsWithin_surveyed "risk..locations"
  obtain ⟨-, -, hrest⟩ := resolve_eq_foldl listsWithin_surveyed "risk.locations"
  refine ⟨htrailing, hdoubled, ?_⟩
  rw [hrest]
  rfl

end Members
end Underwriting
