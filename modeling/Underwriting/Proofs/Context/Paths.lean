import Mathlib.Data.List.Basic
import Underwriting.Context

/-! # Paths and their segments

Joined with dots, the segments of a path are the path again, so no two paths have the same
segments. The paths that may be written to are a section of a context, a dot and more.
-/
namespace Underwriting
namespace Path

theorem split_ne_nil (cs : List Char) : split cs ≠ [] := by
  cases cs with
  | nil => simp [split]
  | cons c cs =>
    rw [split]
    split
    · simp
    · split <;> simp

theorem split_dot (cs : List Char) : split ('.' :: cs) = [] :: split cs := by
  rw [split, if_pos rfl]

theorem split_of_ne_dot {c : Char} (h : c ≠ '.') {cs segment : List Char}
    {rest : List (List Char)} (hrest : split cs = segment :: rest) :
    split (c :: cs) = (c :: segment) :: rest := by
  rw [split, if_neg h, hrest]

theorem intercalate_split (cs : List Char) : ['.'].intercalate (split cs) = cs := by
  induction cs with
  | nil => rfl
  | cons c cs ih =>
    obtain ⟨segment, rest, hsplit⟩ := List.exists_cons_of_ne_nil (split_ne_nil cs)
    rw [hsplit] at ih
    by_cases hc : c = '.'
    · subst hc
      rw [split_dot, hsplit, List.intercalate_cons_cons, ih]
      rfl
    · rw [split_of_ne_dot hc hsplit]
      cases rest with
      | nil => simpa using ih
      | cons other rest =>
        rw [List.intercalate_cons_cons] at ih ⊢
        rw [← ih]
        simp

theorem split_injective {cs ds : List Char} (h : split cs = split ds) : cs = ds := by
  rw [← intercalate_split cs, h, intercalate_split]

theorem split_append_dot {name : List Char} (h : '.' ∉ name) (rest : List Char) :
    split (name ++ '.' :: rest) = name :: split rest := by
  induction name with
  | nil => exact split_dot rest
  | cons c name ih =>
    have hc : c ≠ '.' := fun hdot => h (hdot ▸ List.mem_cons_self)
    exact split_of_ne_dot hc (ih fun hmem => h (List.mem_cons_of_mem c hmem))

theorem segments_ne_nil (path : String) : segments path ≠ [] := by
  rw [segments, Ne, List.map_eq_nil_iff]
  exact split_ne_nil _

theorem segments_injective {path other : String} (h : segments path = segments other) :
    path = other := by
  have hsplit : split path.toList = split other.toList :=
    List.map_injective_iff.mpr (fun _ _ => String.ofList_injective) h
  exact String.toList_inj.mp (split_injective hsplit)

theorem segments_append_dot {name : String} (h : '.' ∉ name.toList) (rest : String) :
    segments (name ++ "." ++ rest) = name :: segments rest := by
  have hlist : (name ++ "." ++ rest).toList = name.toList ++ '.' :: rest.toList := by
    rw [String.toList_append, String.toList_append, List.append_assoc]
    rfl
  rw [segments, hlist, split_append_dot h, List.map_cons, String.ofList_toList]
  rfl

theorem exists_eq_append_dot {cs segment : List Char} {others : List (List Char)}
    (h : split cs = segment :: others) (hothers : others ≠ []) :
    ∃ rest, cs = segment ++ '.' :: rest ∧ split rest = others := by
  induction cs generalizing segment with
  | nil =>
    obtain ⟨-, rfl⟩ : segment = [] ∧ others = [] := by simpa [split, eq_comm] using h
    exact absurd rfl hothers
  | cons c cs ih =>
    obtain ⟨first, following, hsplit⟩ := List.exists_cons_of_ne_nil (split_ne_nil cs)
    by_cases hc : c = '.'
    · subst hc
      rw [split_dot, List.cons.injEq] at h
      obtain ⟨rfl, rfl⟩ := h
      exact ⟨cs, rfl, rfl⟩
    · rw [split_of_ne_dot hc hsplit, List.cons.injEq] at h
      obtain ⟨rfl, rfl⟩ := h
      obtain ⟨rest, hcs, hrest⟩ := ih hsplit
      exact ⟨rest, by rw [hcs]; rfl, hrest⟩

theorem dot_not_mem_of_mem_contextNamespaces :
    ∀ name ∈ contextNamespaces, '.' ∉ name.toList := by
  decide

/-- What may be written to lies below a section of the context. -/
theorem isWritable_iff (path : String) :
    isWritable path = true ↔
      ∃ name ∈ contextNamespaces, ∃ rest, rest ≠ "" ∧ path = name ++ "." ++ rest := by
  constructor
  · intro h
    obtain ⟨first, others, hsplit⟩ := List.exists_cons_of_ne_nil (split_ne_nil path.toList)
    have hsegments : segments path = String.ofList first :: others.map String.ofList := by
      rw [segments, hsplit, List.map_cons]
    simp only [isWritable, hsegments, isContextNamespace, Bool.and_eq_true,
      List.contains_iff_mem, Bool.not_eq_true', List.isEmpty_eq_false_iff, Ne,
      List.map_eq_nil_iff, bne_iff_ne] at h
    obtain ⟨⟨hname, hothers⟩, hempty⟩ := h
    obtain ⟨rest, hpath, hrest⟩ := exists_eq_append_dot hsplit hothers
    refine ⟨_, hname, String.ofList rest, ?_, ?_⟩
    · intro hnil
      refine hempty ?_
      rw [← hrest]
      have hsegments := congrArg segments hnil
      rwa [segments, String.toList_ofList] at hsegments
    · rw [← String.toList_inj, hpath]
      simp
  · rintro ⟨name, hname, rest, hrest, rfl⟩
    have hsegments := segments_append_dot (dot_not_mem_of_mem_contextNamespaces name hname) rest
    have hempty : segments rest ≠ [""] := by
      intro h
      exact hrest (segments_injective h)
    simp [isWritable, hsegments, isContextNamespace, hname, segments_ne_nil, hempty]

end Path
end Underwriting
