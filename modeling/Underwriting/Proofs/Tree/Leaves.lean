import Underwriting.Rule.Basic

/-! # Positions in a condition tree

A position is the list of indices that leads from the root of a tree to one of its
entries. The leaves of a tree are its conditions with their positions, in document order:
that order is the lexicographic one, so no position is listed twice, and the listed
positions are exactly those at which a condition stands.
-/
namespace Underwriting

/-- A condition of a tree and where it stands. -/
structure Leaf where
  position : List Nat
  condition : Condition

namespace Leaf

/-- A leaf of the entry with this index, seen from the group around it. -/
def within (index : Nat) (l : Leaf) : Leaf := ⟨index :: l.position, l.condition⟩

/-- A leaf after one more entry has come to stand before its own. -/
def next (l : Leaf) : Leaf :=
  match l.position with
  | [] => l
  | i :: rest => ⟨(i + 1) :: rest, l.condition⟩

@[simp] theorem condition_within (index : Nat) (l : Leaf) :
    (l.within index).condition = l.condition := rfl

@[simp] theorem position_within (index : Nat) (l : Leaf) :
    (l.within index).position = index :: l.position := rfl

@[simp] theorem condition_next (l : Leaf) : l.next.condition = l.condition := by
  unfold next
  split <;> rfl

end Leaf

namespace Entry

def at? : Entry → List Nat → Option Entry
  | e, [] => some e
  | .condition _, _ :: _ => none
  | .group _ entries, i :: rest => entries[i]?.bind fun e => at? e rest

end Entry

mutual
def Entry.leaves : Entry → List Leaf
  | .condition c => [⟨[], c⟩]
  | .group _ entries => Entry.leavesFrom 0 entries

/-- The conditions of the entries of a group, the first of which has this index. -/
def Entry.leavesFrom : Nat → List Entry → List Leaf
  | _, [] => []
  | i, e :: es => (Entry.leaves e).map (Leaf.within i) ++ Entry.leavesFrom (i + 1) es
end

def ConditionGroup.leaves (g : ConditionGroup) : List Leaf := g.toEntry.leaves

namespace Entry

@[simp] theorem at?_nil (e : Entry) : e.at? [] = some e := by
  cases e <;> rfl

@[simp] theorem at?_condition_cons (c : Condition) (i : Nat) (p : List Nat) :
    (Entry.condition c).at? (i :: p) = none := rfl

@[simp] theorem at?_group_cons (k : Connective) (es : List Entry) (i : Nat) (p : List Nat) :
    (Entry.group k es).at? (i :: p) = es[i]?.bind fun e => e.at? p := rfl

theorem leavesFrom_succ (i : Nat) (es : List Entry) :
    leavesFrom (i + 1) es = (leavesFrom i es).map Leaf.next := by
  induction es generalizing i with
  | nil => rfl
  | cons e es ih =>
    simp only [leavesFrom, List.map_append, List.map_map, ih (i + 1)]
    congr 1

theorem mem_leavesFrom {i : Nat} {es : List Entry} {l : Leaf} :
    l ∈ leavesFrom i es ↔ ∃ (j : Nat) (e : Entry) (inner : Leaf), es[j]? = some e ∧
      inner ∈ e.leaves ∧ l = inner.within (i + j) := by
  induction es generalizing i with
  | nil => simp [leavesFrom]
  | cons e es ih =>
    rw [leavesFrom, List.mem_append, List.mem_map, ih]
    constructor
    · rintro (⟨inner, hinner, rfl⟩ | ⟨j, e', inner, he', hinner, rfl⟩)
      · exact ⟨0, e, inner, rfl, hinner, rfl⟩
      · exact ⟨j + 1, e', inner, he', hinner, by rw [Nat.add_right_comm]; rfl⟩
    · rintro ⟨j, e', inner, he', hinner, rfl⟩
      cases j with
      | zero =>
        obtain rfl : e = e' := by simpa using he'
        exact Or.inl ⟨inner, hinner, rfl⟩
      | succ j =>
        exact Or.inr ⟨j, e', inner, he', hinner, by rw [Nat.add_right_comm]; rfl⟩

theorem forall_leaves_group {P : Condition → Prop} {k : Connective} {es : List Entry} :
    (∀ leaf ∈ (Entry.group k es).leaves, P leaf.condition) ↔
      ∀ e ∈ es, ∀ leaf ∈ e.leaves, P leaf.condition := by
  rw [leaves]
  constructor
  · intro h e he leaf hleaf
    obtain ⟨i, hi⟩ := List.mem_iff_getElem?.mp he
    exact h (leaf.within (0 + i)) (mem_leavesFrom.mpr ⟨i, e, leaf, hi, hleaf, rfl⟩)
  · intro h leaf hleaf
    obtain ⟨i, e, inner, hi, hinner, rfl⟩ := mem_leavesFrom.mp hleaf
    exact h e (List.mem_of_getElem? hi) inner hinner

theorem mem_leaves {e : Entry} {p : List Nat} {c : Condition} :
    ⟨p, c⟩ ∈ e.leaves ↔ e.at? p = some (.condition c) := by
  induction p generalizing e with
  | nil =>
    cases e with
    | condition c' => simp [leaves, eq_comm]
    | group k es => simp [leaves, mem_leavesFrom, Leaf.within]
  | cons i p ih =>
    cases e with
    | condition c' => simp [leaves]
    | group k es =>
      rw [leaves, mem_leavesFrom, at?_group_cons, Option.bind_eq_some_iff]
      constructor
      · rintro ⟨j, e, ⟨q, c'⟩, he, hinner, hl⟩
        obtain ⟨⟨rfl, rfl⟩, rfl⟩ : (i = j ∧ p = q) ∧ c = c' := by simpa [Leaf.within] using hl
        exact ⟨e, he, ih.mp hinner⟩
      · rintro ⟨e, he, hp⟩
        exact ⟨i, e, ⟨p, c⟩, he, ih.mpr hp, by simp [Leaf.within]⟩

mutual
/-- Leaves are listed in document order, each of them once. -/
theorem leaves_sorted : (e : Entry) → (e.leaves.map Leaf.position).Pairwise (· < ·)
  | .condition c => by simp [leaves]
  | .group k es => by
    rw [leaves]
    exact leavesFrom_sorted 0 es

theorem leavesFrom_sorted (i : Nat) : (es : List Entry) →
    ((leavesFrom i es).map Leaf.position).Pairwise (· < ·)
  | [] => by simp [leavesFrom]
  | e :: es => by
    have hfirst := leaves_sorted e
    have hrest := leavesFrom_sorted (i + 1) es
    rw [leavesFrom, List.map_append, List.pairwise_append]
    refine ⟨?_, hrest, ?_⟩
    · rw [List.map_map, List.pairwise_map]
      rw [List.pairwise_map] at hfirst
      exact hfirst.imp fun h => List.cons_lt_cons_self.mpr h
    · -- every later entry has a larger index, whatever follows it
      intro p hp q hq
      simp only [List.mem_map, mem_leavesFrom] at hp hq
      obtain ⟨_, ⟨l, _, rfl⟩, rfl⟩ := hp
      obtain ⟨_, ⟨j, _, l', _, _, rfl⟩, rfl⟩ := hq
      exact List.cons_lt_cons_iff.mpr (Or.inl (by omega))
end

end Entry
end Underwriting
