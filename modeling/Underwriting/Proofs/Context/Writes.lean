import Mathlib.Data.List.Induction
import Mathlib.Data.List.Infix
import Underwriting.Proofs.Context.Paths

/-! # What writes leave where

A write is seen at its path and below it. On the way to it there are objects, and a path that
parts from it leads where it led before. So after many writes each path belongs to one of
three cases: a write covers it, it is on the way to writes, or it lies apart from all of them
and keeps what was there at first.
-/
namespace Underwriting

/-- Neither of two paths leads through the other's end. -/
def Path.Apart (p q : List String) : Prop := ¬ p <+: q ∧ ¬ q <+: p

instance (p q : List String) : Decidable (Path.Apart p q) :=
  inferInstanceAs (Decidable (_ ∧ _))

theorem Path.apart_cons_self {key : String} {p q : List String} :
    Apart (key :: p) (key :: q) ↔ Apart p q := by
  simp [Apart]

theorem Path.below_or_above_or_apart (t p : List String) :
    t <+: p ∨ (∃ segment rest, t = p ++ segment :: rest) ∨ Apart t p := by
  by_cases hbelow : t <+: p
  · exact Or.inl hbelow
  by_cases habove : p <+: t
  · obtain ⟨rest, rfl⟩ := habove
    cases rest with
    | nil => simp at hbelow
    | cons segment rest => exact Or.inr (Or.inl ⟨segment, rest, rfl⟩)
  · exact Or.inr (Or.inr ⟨hbelow, habove⟩)

namespace Value

def memberAt : Value → List String → Option Value
  | v, [] => some v
  | object members, key :: keys => (Members.get? members key).bind fun v => memberAt v keys
  | _, _ :: _ => none

/-- Whether a value holds no list: neither itself nor in its members. -/
def ListFree (v : Value) : Prop := ∀ keys items, v.memberAt keys ≠ some (.list items)

@[simp] theorem memberAt_nil (v : Value) : v.memberAt [] = some v := by
  cases v <;> rfl

theorem listFree_number (x : Float) : (number x).ListFree := by
  intro keys items h
  cases keys <;> cases h

@[simp] theorem memberAt_object_cons (members : Members) (key : String) (keys : List String) :
    (object members).memberAt (key :: keys) =
      (members.get? key).bind fun v => v.memberAt keys := rfl

@[simp] theorem follow_nil (v : Value) : v.follow [] = some v := by
  cases v <;> rfl

theorem follow_append (v : Value) (p q : List String) :
    v.follow (p ++ q) = (v.follow p).bind fun w => w.follow q := by
  induction p generalizing v with
  | nil => simp
  | cons segment p ih =>
    rw [List.cons_append, follow, follow, Option.bind_assoc]
    congr 1
    funext w
    exact ih w

theorem follow_of_memberAt {v w : Value} {p : List String} (h : v.memberAt p = some w) :
    v.follow p = some w := by
  induction p generalizing v with
  | nil => simpa using h
  | cons key p ih =>
    cases v with
    | object members =>
      rw [memberAt_object_cons, Option.bind_eq_some_iff] at h
      obtain ⟨x, hget, hx⟩ := h
      rw [follow, step, hget, Option.bind_some]
      exact ih hx
    | _ => cases h

theorem follow_eq_memberAt {v : Value} {p : List String}
    (h : ∀ above, above <+: p → above ≠ p → ∀ items, v.memberAt above ≠ some (list items)) :
    v.follow p = v.memberAt p := by
  induction p generalizing v with
  | nil => simp
  | cons key p ih =>
    cases v with
    | object members =>
      rw [follow, step, memberAt_object_cons]
      cases hget : Members.get? members key with
      | none => rfl
      | some w =>
        rw [Option.bind_some, Option.bind_some]
        refine ih ?_
        intro above hway hne items
        have hbelow := h (key :: above) (List.cons_prefix_cons.mpr ⟨rfl, hway⟩)
          (by simpa using hne) items
        rwa [memberAt_object_cons, hget, Option.bind_some] at hbelow
    | list items => exact absurd (memberAt_nil _) (h [] List.nil_prefix (by simp) items)
    | _ => rfl

theorem memberAt_membersOrEmpty (current : Option Value) {p : List String} (hp : p ≠ []) :
    (object (membersOrEmpty current)).memberAt p = current.bind fun v => v.memberAt p := by
  obtain ⟨key, rest, rfl⟩ := List.exists_cons_of_ne_nil hp
  rcases current with - | v
  · rfl
  · cases v <;> rfl

theorem membersOrEmpty_memberAt (current : Option Value) (p : List String) :
    membersOrEmpty ((object (membersOrEmpty current)).memberAt p) =
      membersOrEmpty (current.bind fun v => v.memberAt p) := by
  cases p with
  | nil =>
    rcases current with - | v
    · rfl
    · cases v <;> rfl
  | cons key p => rw [memberAt_membersOrEmpty current (List.cons_ne_nil key p)]

end Value

namespace Members
open Value

/-- Whether a path comes to a list on its way. -/
def ListAbove (members : Members) (path : String) : Prop :=
  ∃ above, above <+: Path.segments path ∧ above ≠ Path.segments path ∧
    ∃ items, (object members).follow above = some (.list items)

instance (members : Members) (path : String) : Decidable (members.ListAbove path) :=
  decidable_of_iff (∃ above ∈ (Path.segments path).inits, above ≠ Path.segments path ∧
      ((object members).follow above).map kind = some .list) <| by
    have hlist (v : Option Value) : v.map kind = some .list ↔ ∃ items, v = some (.list items) := by
      rcases v with - | v
      · simp
      · cases v <;> simp [kind]
    simp only [List.mem_inits, hlist]
    rfl

/-! ## One write -/

theorem writeAt_cons_of_ne_nil (members : Members) (key : String) {rest : List String}
    (h : rest ≠ []) (v : Value) :
    members.writeAt (key :: rest) v =
      members.insert key (.object (writeAt (membersOrEmpty (members.get? key)) rest v)) := by
  obtain ⟨segment, segments, rfl⟩ := List.exists_cons_of_ne_nil h
  rfl

theorem insert_ne_nil (members : Members) (key : String) (v : Value) :
    members.insert key v ≠ [] := by
  cases members with
  | nil => exact List.cons_ne_nil _ _
  | cons e rest =>
    rw [insert]
    split <;> exact List.cons_ne_nil _ _

theorem writeAt_ne_nil (members : Members) {t : List String} (ht : t ≠ []) (v : Value) :
    members.writeAt t v ≠ [] := by
  obtain ⟨key, rest, rfl⟩ := List.exists_cons_of_ne_nil ht
  cases rest with
  | nil => exact members.insert_ne_nil key v
  | cons segment rest => exact members.insert_ne_nil key _

theorem get?_writeAt_of_ne (members : Members) {key other : String} (h : other ≠ key)
    (t : List String) (v : Value) :
    (members.writeAt (key :: t) v).get? other = members.get? other := by
  cases t with
  | nil => exact get?_insert_of_ne _ _ h
  | cons segment t => exact get?_insert_of_ne _ _ h

theorem memberAt_writeAt_append (members : Members) {t : List String} (ht : t ≠ [])
    (v : Value) (q : List String) :
    (object (members.writeAt t v)).memberAt (t ++ q) = v.memberAt q := by
  induction t generalizing members with
  | nil => exact absurd rfl ht
  | cons key t ih =>
    rw [List.cons_append, memberAt_object_cons]
    by_cases hlast : t = []
    · subst hlast
      rw [writeAt, get?_insert_self]
      rfl
    · rw [writeAt_cons_of_ne_nil _ _ hlast, get?_insert_self, Option.bind_some]
      exact ih _ hlast

theorem resolve_write (members : Members) (path : String) (v : Value) :
    (members.write path v).resolve path = some v := by
  have hat := memberAt_writeAt_append members (Path.segments_ne_nil path) v []
  rw [List.append_nil, memberAt_nil] at hat
  exact follow_of_memberAt hat

theorem memberAt_writeAt_above (members : Members) (p : List String) (segment : String)
    (rest : List String) (v : Value) :
    (object (members.writeAt (p ++ segment :: rest) v)).memberAt p =
      some (.object (writeAt (membersOrEmpty ((object members).memberAt p))
        (segment :: rest) v)) := by
  induction p generalizing members with
  | nil => rfl
  | cons key p ih =>
    have hrest : p ++ segment :: rest ≠ [] := by simp
    rw [List.cons_append, writeAt_cons_of_ne_nil _ _ hrest, memberAt_object_cons,
      get?_insert_self, Option.bind_some, ih, membersOrEmpty_memberAt, memberAt_object_cons]

theorem memberAt_writeAt_apart (members : Members) {t p : List String} (h : Path.Apart t p)
    (v : Value) : (object (members.writeAt t v)).memberAt p = (object members).memberAt p := by
  induction t generalizing members p with
  | nil => exact absurd List.nil_prefix h.1
  | cons key t ih =>
    cases p with
    | nil => exact absurd List.nil_prefix h.2
    | cons other p =>
      rw [memberAt_object_cons, memberAt_object_cons]
      by_cases hkey : other = key
      · subst hkey
        have hapart : Path.Apart t p := Path.apart_cons_self.mp h
        have htne : t ≠ [] := fun hnil => hapart.1 (hnil ▸ List.nil_prefix)
        have hpne : p ≠ [] := fun hnil => hapart.2 (hnil ▸ List.nil_prefix)
        rw [writeAt_cons_of_ne_nil _ _ htne, get?_insert_self, Option.bind_some, ih _ hapart,
          memberAt_membersOrEmpty _ hpne]
      · rw [get?_writeAt_of_ne members hkey]

/-! ## Many writes -/

def writeAll (members : Members) (log : List (List String × Value)) : Members :=
  log.foldl (fun written w => written.writeAt w.1 w.2) members

theorem writeAll_concat (members : Members) (log : List (List String × Value))
    (w : List String × Value) :
    members.writeAll (log ++ [w]) = (members.writeAll log).writeAt w.1 w.2 := by
  rw [writeAll, List.foldl_append]
  rfl

section
variable {log : List (List String × Value)} {p : List String}

/-- At and below a written path nothing is left of what was there at first. -/
theorem memberAt_writeAll_below (hlog : ∀ w ∈ log, w.1 ≠ [])
    (hp : ∃ w ∈ log, w.1 <+: p) (first second : Members) :
    (object (first.writeAll log)).memberAt p = (object (second.writeAll log)).memberAt p := by
  induction log using List.reverseRecOn generalizing p with
  | nil => simp at hp
  | append_singleton log w ih =>
    obtain ⟨t, v⟩ := w
    have hbefore : ∀ w ∈ log, w.1 ≠ [] := fun w hw => hlog w (List.mem_append_left _ hw)
    have ht : t ≠ [] := hlog (t, v) (by simp)
    rw [writeAll_concat, writeAll_concat]
    by_cases hcovered : t <+: p
    · obtain ⟨q, rfl⟩ := hcovered
      rw [memberAt_writeAt_append _ ht, memberAt_writeAt_append _ ht]
    -- an earlier write covers the path, and the last one hides nothing of it
    · have hearlier : ∃ w ∈ log, w.1 <+: p := by
        obtain ⟨w, hw, hwp⟩ := hp
        rcases List.mem_append.mp hw with hw | hw
        · exact ⟨w, hw, hwp⟩
        · obtain rfl := List.mem_singleton.mp hw
          exact absurd hwp hcovered
      have hsame := ih hbefore hearlier
      rcases Path.below_or_above_or_apart t p with hbelow | ⟨segment, rest, rfl⟩ | hapart
      · exact absurd hbelow hcovered
      · rw [memberAt_writeAt_above, memberAt_writeAt_above, hsame]
      · rw [memberAt_writeAt_apart _ hapart, memberAt_writeAt_apart _ hapart, hsame]

theorem memberAt_writeAll_above (hcovered : ∀ w ∈ log, ¬ w.1 <+: p)
    (hp : ∃ w ∈ log, p <+: w.1) (members : Members) :
    ∃ inner, (object (members.writeAll log)).memberAt p = some (.object inner) := by
  induction log using List.reverseRecOn with
  | nil => simp at hp
  | append_singleton log w ih =>
    obtain ⟨t, v⟩ := w
    rw [writeAll_concat]
    rcases Path.below_or_above_or_apart t p with hbelow | ⟨segment, rest, rfl⟩ | hapart
    · exact absurd hbelow (hcovered (t, v) (by simp))
    · exact ⟨_, memberAt_writeAt_above _ _ _ _ _⟩
    · have hearlier : ∃ w ∈ log, p <+: w.1 := by
        obtain ⟨w, hw, hpw⟩ := hp
        rcases List.mem_append.mp hw with hw | hw
        · exact ⟨w, hw, hpw⟩
        · obtain rfl := List.mem_singleton.mp hw
          exact absurd hpw hapart.2
      rw [memberAt_writeAt_apart _ hapart]
      exact ih (fun w hw => hcovered w (List.mem_append_left _ hw)) hearlier

theorem memberAt_writeAll_apart (hp : ∀ w ∈ log, Path.Apart w.1 p) (members : Members) :
    (object (members.writeAll log)).memberAt p = (object members).memberAt p := by
  induction log using List.reverseRecOn with
  | nil => rfl
  | append_singleton log w ih =>
    rw [writeAll_concat, memberAt_writeAt_apart _ (hp w (by simp))]
    exact ih fun w hw => hp w (List.mem_append_left _ hw)

/-- What stands at a path after writes none of which goes through its end or stops on the way
to it is the last value written there. -/
theorem memberAt_writeAll_last (hlog : ∀ w ∈ log, w.1 ≠ [])
    (hp : ∀ w ∈ log, w.1 = p ∨ Path.Apart w.1 p) (members : Members) :
    (object (members.writeAll log)).memberAt p =
      (((log.filter (·.1 = p)).getLast?.map Prod.snd).or ((object members).memberAt p)) := by
  induction log using List.reverseRecOn with
  | nil => rfl
  | append_singleton log w ih =>
    obtain ⟨t, v⟩ := w
    have hbefore := ih (fun w hw => hlog w (List.mem_append_left _ hw))
      (fun w hw => hp w (List.mem_append_left _ hw))
    rw [writeAll_concat, List.filter_append]
    rcases hp (t, v) (by simp) with rfl | hapart
    · have hat := memberAt_writeAt_append (members.writeAll log) (hlog (t, v) (by simp)) v []
      rw [List.append_nil, memberAt_nil] at hat
      simp [hat]
    · have hne : t ≠ p := fun h => hapart.1 (h ▸ List.prefix_refl t)
      rw [memberAt_writeAt_apart _ hapart, hbefore]
      simp [hne]

/-- A list stands where a write covers the path or else where it stood at first. -/
theorem list_of_memberAt_writeAll {members : Members} {items : List Value}
    (h : (object (members.writeAll log)).memberAt p = some (.list items)) :
    (∃ w ∈ log, w.1 <+: p) ∨
      (∀ w ∈ log, Path.Apart w.1 p) ∧ (object members).memberAt p = some (.list items) := by
  by_cases hcovered : ∃ w ∈ log, w.1 <+: p
  · exact Or.inl hcovered
  have hnot : ∀ w ∈ log, ¬ w.1 <+: p := fun w hw hwp => hcovered ⟨w, hw, hwp⟩
  by_cases habove : ∃ w ∈ log, p <+: w.1
  · obtain ⟨inner, hinner⟩ := memberAt_writeAll_above hnot habove members
    rw [hinner] at h
    cases h
  · have hapart : ∀ w ∈ log, Path.Apart w.1 p :=
      fun w hw => ⟨hnot w hw, fun hpw => habove ⟨w, hw, hpw⟩⟩
    rw [memberAt_writeAll_apart hapart] at h
    exact Or.inr ⟨hapart, h⟩

theorem follow_writeAll_nil (hp : ∀ w ∈ log, w.1 <+: p → w.1 = p) :
    (object (writeAll [] log)).follow p = (object (writeAll [] log)).memberAt p := by
  refine follow_eq_memberAt ?_
  intro above hway hne items hlist
  rcases list_of_memberAt_writeAll hlist with ⟨w, hw, hwa⟩ | ⟨-, hfirst⟩
  · -- a write that stops on the way to the path stops at its end
    have hend := hp w hw (hwa.trans hway)
    rw [hend] at hwa
    exact hne (hway.eq_of_length (Nat.le_antisymm hway.length_le hwa.length_le))
  · cases above with
    | nil => cases hfirst
    | cons key above => cases hfirst

theorem listFree_writeAll_nil (hlog : ∀ w ∈ log, w.1 ≠ []) (hfree : ∀ w ∈ log, w.2.ListFree) :
    (object (writeAll [] log)).ListFree := by
  induction log using List.reverseRecOn with
  | nil =>
    intro keys items h
    cases keys with
    | nil => cases h
    | cons key keys => cases h
  | append_singleton log w ih =>
    obtain ⟨t, v⟩ := w
    intro keys items
    rw [writeAll_concat]
    rcases Path.below_or_above_or_apart t keys with ⟨q, rfl⟩ | ⟨segment, rest, rfl⟩ | hapart
    · rw [memberAt_writeAt_append _ (hlog (t, v) (by simp))]
      exact hfree (t, v) (by simp) q items
    · rw [memberAt_writeAt_above]
      simp
    · rw [memberAt_writeAt_apart _ hapart]
      exact ih (fun w hw => hlog w (List.mem_append_left _ hw))
        (fun w hw => hfree w (List.mem_append_left _ hw)) keys items

/-! ## Writes over other members -/

/-- At and below a written path, values written over others are found as if they were alone. -/
theorem follow_writeAll_below (hlog : ∀ w ∈ log, w.1 ≠ []) (hfree : ∀ w ∈ log, w.2.ListFree)
    (hp : ∃ w ∈ log, w.1 <+: p) (members : Members) :
    (object (members.writeAll log)).follow p = (object (writeAll [] log)).follow p := by
  have halone := listFree_writeAll_nil hlog hfree
  have hover : (object (members.writeAll log)).follow p =
      (object (members.writeAll log)).memberAt p := by
    refine follow_eq_memberAt ?_
    intro above hway _ items hlist
    -- a list of the first members cannot be on the way, since a write covers the path
    rcases list_of_memberAt_writeAll hlist with hcovered | ⟨hapart, -⟩
    · rw [memberAt_writeAll_below hlog hcovered members []] at hlist
      exact halone above items hlist
    · obtain ⟨w, hw, hwp⟩ := hp
      rcases List.prefix_or_prefix_of_prefix hwp hway with hbelow | habove
      · exact (hapart w hw).1 hbelow
      · exact (hapart w hw).2 habove
  rw [hover, follow_eq_memberAt fun above _ _ items => halone above items,
    memberAt_writeAll_below hlog hp members []]

theorem follow_writeAll_apart {members : Members} (hp : ∀ w ∈ log, Path.Apart w.1 p)
    (hlists : ∀ above, above <+: p → above ≠ p → ∀ items,
      (object members).follow above ≠ some (.list items)) :
    (object (members.writeAll log)).follow p = (object members).follow p := by
  have hfirst : ∀ above, above <+: p → above ≠ p → ∀ items,
      (object members).memberAt above ≠ some (.list items) :=
    fun above hway hne items hlist => hlists above hway hne items (follow_of_memberAt hlist)
  have hover : (object (members.writeAll log)).follow p =
      (object (members.writeAll log)).memberAt p := by
    refine follow_eq_memberAt ?_
    intro above hway hne items hlist
    rcases list_of_memberAt_writeAll hlist with ⟨w, hw, hwa⟩ | ⟨-, hlist⟩
    · exact (hp w hw).1 (hwa.trans hway)
    · exact hfirst above hway hne items hlist
  rw [hover, follow_eq_memberAt hfirst, memberAt_writeAll_apart hp]

theorem follow_writeAll_nil_apart (hp : ∀ w ∈ log, Path.Apart w.1 p) (hne : p ≠ []) :
    (object (writeAll [] log)).follow p = none := by
  rw [follow_writeAll_nil fun w hw hway => absurd hway (hp w hw).1, memberAt_writeAll_apart hp]
  obtain ⟨key, keys, rfl⟩ := List.exists_cons_of_ne_nil hne
  rfl

end
end Members
end Underwriting
