import Underwriting.Proofs.Context.Walk

/-! # Writing and resolving

A path is written from dot to dot as it is walked, so what was written at a path is what the path
leads to. The last of several writes at one path is the only one that counts, and other paths
notice nothing as long as no list gives way to an object.
-/
namespace Underwriting
open Value

/-! ## From dot to dot -/

theorem Path.writeFrom_eq_writeAt {path : List Char} (members : Members) (v : Value) {start : Nat}
    (h : start ≤ path.length) :
    writeFrom path members v start =
      .ok (members.writeAt ((split (path.drop start)).map String.ofList) v) := by
  fun_induction writeFrom path members v start with
  | case1 members start e he =>
    obtain ⟨segment, hpart, -⟩ := exists_part h
    rw [hpart] at he
    cases he
  | case2 members start segment hsegment key hdot =>
    obtain ⟨first, hpart, hrest⟩ := exists_part h
    obtain rfl : first = segment := Except.ok.inj (hpart.symm.trans hsegment)
    rw [hrest, hdot]
    rfl
  | case3 members start segment hsegment key dot hdot e he ih =>
    have hlt := Text.lt_of_find? hdot
    rw [ih (by omega)] at he
    cases he
  | case4 members start segment hsegment key dot hdot inner hinner ih =>
    have hlt := Text.lt_of_find? hdot
    obtain ⟨first, hpart, hrest⟩ := exists_part h
    obtain rfl : first = segment := Except.ok.inj (hpart.symm.trans hsegment)
    rw [ih (by omega)] at hinner
    have hbehind : behind path (some dot) = (split (path.drop (dot + 1))).map String.ofList := rfl
    rw [hrest, hdot, hbehind, Members.writeAt_cons_of_ne_nil _ _ (by simp [split_ne_nil]),
      Except.ok.inj hinner]

namespace Members

theorem writeAlong_eq_write (members : Members) (path : String) (v : Value) :
    members.writeAlong path v = .ok (members.write path v) :=
  Path.writeFrom_eq_writeAt members v (Nat.zero_le _)

/-! ## Two writes -/

theorem insert_insert (members : Members) (key : String) (v w : Value) :
    (members.insert key v).insert key w = members.insert key w := by
  induction members with
  | nil => simp [insert]
  | cons e rest ih =>
    by_cases h : e.1 = key
    · simp [insert, h]
    · simp [insert, h, ih]

theorem writeAt_writeAt (members : Members) (t : List String) (v w : Value) :
    (members.writeAt t v).writeAt t w = members.writeAt t w := by
  induction t generalizing members with
  | nil => rfl
  | cons key t ih =>
    by_cases ht : t = []
    · subst ht
      exact insert_insert members key v w
    · rw [writeAt_cons_of_ne_nil _ _ ht, writeAt_cons_of_ne_nil _ _ ht, get?_insert_self,
        insert_insert, writeAt_cons_of_ne_nil _ _ ht]
      exact congrArg (fun inner => members.insert key (.object inner)) (ih _)

/-! ## Other paths -/

theorem follow_membersOrEmpty {current : Option Value}
    (hlist : ∀ items, current ≠ some (.list items)) {p : List String} (hp : p ≠ []) :
    (object (membersOrEmpty current)).follow p = current.bind fun v => v.follow p := by
  obtain ⟨key, rest, rfl⟩ := List.exists_cons_of_ne_nil hp
  rcases current with - | v
  · rfl
  · cases v with
    | list items => exact absurd rfl (hlist items)
    | _ => rfl

/-- What segments lead to is still there after a write apart from them, unless a list gave way
to an object on the way to the write. -/
theorem follow_writeAt_apart (members : Members) {t q : List String} (h : Path.Apart t q)
    (hlists : ∀ above, above <+: t → above ≠ t → ∀ items,
      (object members).follow above ≠ some (.list items)) (v : Value) :
    (object (members.writeAt t v)).follow q = (object members).follow q := by
  induction t generalizing members q with
  | nil => exact absurd List.nil_prefix h.1
  | cons key t ih =>
    cases q with
    | nil => exact absurd List.nil_prefix h.2
    | cons other q =>
      rw [follow, follow, step, step]
      by_cases hkey : other = key
      · subst hkey
        have hapart : Path.Apart t q := Path.apart_cons_self.mp h
        have htne : t ≠ [] := fun hnil => hapart.1 (hnil ▸ List.nil_prefix)
        have hqne : q ≠ [] := fun hnil => hapart.2 (hnil ▸ List.nil_prefix)
        have hbelow (above : List String) (hway : above <+: t) (hne : above ≠ t)
            (items : List Value) :
            ((members.get? other).bind fun w => w.follow above) ≠ some (.list items) :=
          hlists (other :: above) (List.cons_prefix_cons.mpr ⟨rfl, hway⟩) (by simpa using hne) items
        have hcurrent (items : List Value) : members.get? other ≠ some (.list items) := by
          intro hlist
          have hfirst := hbelow [] List.nil_prefix htne.symm items
          rw [hlist] at hfirst
          exact hfirst rfl
        rw [writeAt_cons_of_ne_nil _ _ htne, get?_insert_self, Option.bind_some,
          ih _ hapart, follow_membersOrEmpty hcurrent hqne]
        intro above hway hne items
        by_cases habove : above = []
        · subst habove
          intro hlist
          cases hlist
        · rw [follow_membersOrEmpty hcurrent habove]
          exact hbelow above hway hne items
      · rw [get?_writeAt_of_ne members hkey]

/-- Writing goes along a path from dot to dot without leaving it, and writing and resolving are a
lens: a path leads to what was written at it, of two writes at one path only the last counts,
and where no list gives way to an object every path apart from the written one leads where it led
before. -/
theorem write_resolve_lens (members : Members) (path : String) (v : Value) :
    members.writeAlong path v = .ok (members.write path v) ∧
      (members.write path v).resolve path = some v ∧
      (∀ w, (members.write path v).write path w = members.write path w) ∧
      (¬ members.ListAbove path →
        ∀ other, Path.Apart (Path.segments path) (Path.segments other) →
          (members.write path v).resolve other = members.resolve other) := by
  refine ⟨members.writeAlong_eq_write path v, members.resolve_write path v,
    members.writeAt_writeAt (Path.segments path) v, fun hlists other hapart => ?_⟩
  refine follow_writeAt_apart members hapart ?_ v
  intro above hway hne items hlist
  exact hlists ⟨above, hway, hne, items, hlist⟩

theorem write_score_beside_locations :
    (surveyed.write "risk.score" (.bool false)).resolve "risk.score" = some (.bool false) ∧
      (surveyed.write "risk.score" (.bool false)).resolve "risk.locations.0.tiv" =
        some (.bool true) := by
  obtain ⟨-, hwritten, -, hapart⟩ := write_resolve_lens surveyed "risk.score" (.bool false)
  refine ⟨hwritten, ?_⟩
  rw [hapart (by decide) "risk.locations.0.tiv" (by decide)]
  rfl

end Members
end Underwriting
