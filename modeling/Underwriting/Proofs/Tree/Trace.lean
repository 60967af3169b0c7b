import Underwriting.Evaluation.Conditions
import Underwriting.Proofs.Tree.Leaves

/-! # What a condition tree means and what its evaluation records

A tree denotes a truth value by itself: AND and OR join the denotations of all entries,
whether or not some of them settle the outcome. Evaluation stops early and yet finds the
same value, and its trace holds exactly the leaves that no decisive entry stands before.
-/
namespace Underwriting

/-- AND and OR of any number of outcomes. -/
def Connective.join : Connective → List Bool → Bool
  | .and, outcomes => outcomes.all id
  | .or, outcomes => outcomes.any id

def Connective.decisive : Connective → Bool
  | .and => false
  | .or => true

mutual
def Entry.denotes (context : Members) : Entry → Bool
  | .condition c => (c.evaluate context).matched
  | .group connective entries => connective.join (Entry.denotations context entries)

def Entry.denotations (context : Members) : List Entry → List Bool
  | [] => []
  | e :: es => Entry.denotes context e :: Entry.denotations context es
end

def ConditionGroup.denotes (context : Members) (g : ConditionGroup) : Bool :=
  g.toEntry.denotes context

/-- Whether evaluation comes to a position: in no group on the way there does a decisive
entry stand before the one that the position goes through. -/
def Entry.Reaches (context : Members) (root : Entry) (position : List Nat) : Prop :=
  ∀ above i below, position = above ++ i :: below →
    ∀ connective entries, root.at? above = some (.group connective entries) →
      ∀ e ∈ entries.take i, e.denotes context ≠ connective.decisive

namespace Connective

theorem isDecided_iff (k : Connective) (b : Bool) : k.isDecided b = true ↔ b = k.decisive := by
  cases k <;> cases b <;> decide

theorem join_cons (k : Connective) (b : Bool) (bs : List Bool) :
    k.join (b :: bs) = if b = k.decisive then b else k.join bs := by
  cases k <;> cases b <;> rfl

theorem join_nil (k : Connective) : k.join [] = k.otherwise := by
  cases k <;> rfl

end Connective

namespace Entry
variable {context : Members}

theorem reaches_nil (e : Entry) : e.Reaches context [] := by
  intro above i below h
  simp at h

theorem reaches_condition (c : Condition) (p : List Nat) :
    (Entry.condition c).Reaches context p := by
  intro above i below _ k es h
  cases above <;> simp at h

theorem reaches_group_cons (k : Connective) (es : List Entry) (i : Nat) (p : List Nat) :
    (Entry.group k es).Reaches context (i :: p) ↔
      (∀ e ∈ es.take i, e.denotes context ≠ k.decisive) ∧
        ∀ e, es[i]? = some e → e.Reaches context p := by
  constructor
  · intro h
    refine ⟨h [] i p rfl k es rfl, ?_⟩
    intro e he above j below hp k' es' hat
    refine h (i :: above) j below (by rw [hp]; rfl) k' es' ?_
    rw [at?_group_cons, he, Option.bind_some, hat]
  · rintro ⟨hfirst, hrest⟩ above j below hp k' es' hat
    cases above with
    | nil =>
      obtain ⟨rfl, rfl⟩ : i = j ∧ p = below := by simpa using hp
      obtain ⟨rfl, rfl⟩ : k = k' ∧ es = es' := by simpa using hat
      exact hfirst
    | cons i' above =>
      obtain ⟨rfl, rfl⟩ : i = i' ∧ p = above ++ j :: below := by simpa using hp
      rw [at?_group_cons, Option.bind_eq_some_iff] at hat
      obtain ⟨e, he, hat⟩ := hat
      exact hrest e he above j below rfl k' es' hat

def decidableReaches (context : Members) :
    (e : Entry) → (p : List Nat) → Decidable (e.Reaches context p)
  | e, [] => isTrue (reaches_nil e)
  | .condition c, _ :: _ => isTrue (reaches_condition c _)
  | .group k es, i :: p =>
    match h : es[i]? with
    | none =>
      decidable_of_iff (∀ e ∈ es.take i, e.denotes context ≠ k.decisive)
        (by simp [reaches_group_cons, h])
    | some e =>
      have := decidableReaches context e p
      decidable_of_iff ((∀ e ∈ es.take i, e.denotes context ≠ k.decisive) ∧ e.Reaches context p)
        (by simp [reaches_group_cons, h])

instance (e : Entry) (p : List Nat) : Decidable (e.Reaches context p) :=
  decidableReaches context e p

theorem reaches_group_zero (k : Connective) (e : Entry) (es : List Entry) (p : List Nat) :
    (Entry.group k (e :: es)).Reaches context (0 :: p) ↔ e.Reaches context p := by
  rw [reaches_group_cons]
  simp

/-- A later entry is reached when the first one does not settle the group and it would be
reached without it. -/
theorem reaches_group_succ (k : Connective) (e : Entry) (es : List Entry) (i : Nat)
    (p : List Nat) :
    (Entry.group k (e :: es)).Reaches context ((i + 1) :: p) ↔
      e.denotes context ≠ k.decisive ∧ (Entry.group k es).Reaches context (i :: p) := by
  rw [reaches_group_cons, reaches_group_cons]
  simp [and_assoc]

def reachedLeaves (context : Members) (e : Entry) : List Leaf :=
  e.leaves.filter fun l => e.Reaches context l.position

theorem reachedLeaves_group_cons (k : Connective) (e : Entry) (es : List Entry) :
    (Entry.group k (e :: es)).reachedLeaves context =
      (e.reachedLeaves context).map (Leaf.within 0) ++
        if e.denotes context = k.decisive then []
        else ((Entry.group k es).reachedLeaves context).map Leaf.next := by
  have hhead : (e.leaves.map (Leaf.within 0)).filter
      (fun l => decide ((Entry.group k (e :: es)).Reaches context l.position)) =
      (e.reachedLeaves context).map (Leaf.within 0) := by
    simp [reachedLeaves, List.filter_map, Function.comp_def, reaches_group_zero]
  have htail : (leavesFrom 1 es).filter
      (fun l => decide ((Entry.group k (e :: es)).Reaches context l.position)) =
      if e.denotes context = k.decisive then []
      else ((Entry.group k es).reachedLeaves context).map Leaf.next := by
    rw [leavesFrom_succ, List.filter_map]
    -- a leaf of a group stands at an index, so it moves on by one
    have hmoved : ∀ l ∈ leavesFrom 0 es,
        ((Entry.group k (e :: es)).Reaches context l.next.position ↔
          e.denotes context ≠ k.decisive ∧
            (Entry.group k es).Reaches context l.position) := by
      intro l hl
      obtain ⟨j, _, inner, _, _, rfl⟩ := mem_leavesFrom.mp hl
      exact reaches_group_succ k e es (0 + j) inner.position
    by_cases hdecisive : e.denotes context = k.decisive
    · rw [if_pos hdecisive, List.map_eq_nil_iff, List.filter_eq_nil_iff]
      intro l hl
      simp [hmoved l hl, hdecisive]
    · rw [if_neg hdecisive]
      congr 1
      refine List.filter_congr ?_
      intro l hl
      simp [hmoved l hl, hdecisive]
  rw [reachedLeaves, leaves, leavesFrom, List.filter_append, hhead, htail]

/-- What evaluation should come to: the truth value of an entry, and the results of the
leaves that it comes to. -/
def expectedResult (context : Members) (e : Entry) : GroupResult :=
  ⟨e.denotes context, (e.reachedLeaves context).map fun l => l.condition.evaluate context⟩

mutual
theorem evaluate_eq : (e : Entry) → e.evaluate context = e.expectedResult context
  | .condition c => by
    simp [evaluate, expectedResult, denotes, reachedLeaves, leaves, reaches_nil]
  | .group k es => by
    rw [evaluate]
    exact evaluateAll_eq k es

theorem evaluateAll_eq (k : Connective) :
    (es : List Entry) → evaluateAll context k es = (Entry.group k es).expectedResult context
  | [] => by
    simp [evaluateAll, expectedResult, denotes, denotations, Connective.join_nil,
      reachedLeaves, leaves, leavesFrom]
  | e :: es => by
    have hfirst := evaluate_eq e
    have hrest := evaluateAll_eq k es
    have hjoin : (Entry.group k (e :: es)).denotes context =
        if e.denotes context = k.decisive then e.denotes context
        else (Entry.group k es).denotes context := by
      simp only [denotes, denotations, Connective.join_cons]
    simp only [evaluateAll, hfirst, hrest, Connective.isDecided_iff]
    simp only [expectedResult, hjoin, reachedLeaves_group_cons]
    by_cases hdecisive : e.denotes context = k.decisive
    · simp [hdecisive, Function.comp_def]
    · simp [hdecisive, Function.comp_def]
end

end Entry

/-- Evaluation finds the truth value of a tree. Its trace holds the results of the leaves
that it comes to, in document order and each of them once; the leaves are the conditions of
the tree. -/
theorem ConditionGroup.evaluate_denotes_and_traces (g : ConditionGroup) (context : Members) :
    (g.evaluate context).matched = g.denotes context ∧
    (g.evaluate context).trace =
      (g.leaves.filter fun l => g.toEntry.Reaches context l.position).map
        (fun l => l.condition.evaluate context) ∧
    (g.leaves.map Leaf.position).Pairwise (· < ·) ∧
    ∀ position c, ⟨position, c⟩ ∈ g.leaves ↔ g.toEntry.at? position = some (.condition c) := by
  have heval : g.evaluate context = g.toEntry.expectedResult context :=
    Entry.evaluateAll_eq g.connective g.entries
  refine ⟨?_, ?_, Entry.leaves_sorted g.toEntry, fun position c => Entry.mem_leaves⟩
  · rw [heval]
    rfl
  · rw [heval]
    rfl

end Underwriting
