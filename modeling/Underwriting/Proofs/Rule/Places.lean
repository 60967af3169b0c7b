import Underwriting.Proofs.Rule.Faults

/-! # Places in the document of a rule

A place is spelled in errors, and the spelling says which keys and indices lead to it. Reading
goes through the places of a document in order: first the document itself, then its tree, each
group before its entries, then the two lists of actions. What stands at a place is in order by
itself or not, whatever is nested in it.
-/
namespace Underwriting

/-! ## Steps -/

inductive Step where
  | key (name : String)
  | index (i : Nat)

def Value.enter? : Value → Step → Option Value
  | .object ms, .key name => Members.get? ms name
  | .list items, .index i => items[i]?
  | _, _ => none

def Value.reach? : Value → List Step → Option Value
  | v, [] => some v
  | v, step :: steps => (v.enter? step).bind fun w => reach? w steps

/-- The tree is read in turn 0, and then the actions. -/
def Branch.turn : Branch → Nat
  | .thenBranch => 1
  | .elseBranch => 2

namespace Location

def steps : Location → List Step
  | .document => []
  | .condition path => .key "if" :: path.flatMap fun i => [.key "conditions", .index i]
  | .actions branch => [.key branch.key]
  | .action branch i => [.key branch.key, .index i]

/-- The texts that name places, and the steps that they name. -/
inductive Spells : String → List Step → Prop where
  | document : Spells "logic" []
  | root : Spells "if" [.key "if"]
  | entry {text : String} {steps : List Step} (i : Nat) : Spells text (.key "if" :: steps) →
    Spells (text ++ ".conditions[" ++ toString i ++ "]")
      (.key "if" :: (steps ++ [.key "conditions", .index i]))
  | actions (branch : Branch) : Spells branch.key [.key branch.key]
  | action (branch : Branch) (i : Nat) :
    Spells (branch.key ++ "[" ++ toString i ++ "]") [.key branch.key, .index i]

theorem text_condition_concat (path : List Nat) (i : Nat) :
    (condition (path ++ [i])).text =
      (condition path).text ++ ".conditions[" ++ toString i ++ "]" := by
  simp only [text, List.foldl_append, List.foldl_cons, List.foldl_nil]

theorem spells (location : Location) : Spells location.text location.steps := by
  cases location with
  | document => exact .document
  | actions branch => exact .actions branch
  | action branch i => exact .action branch i
  | condition path =>
    -- the text of a path grows at its end
    induction path using List.reverseRecOn with
    | nil => exact .root
    | append_singleton path i ih =>
      have hsteps : (condition (path ++ [i])).steps =
          .key "if" :: ((path.flatMap fun i => [.key "conditions", .index i]) ++
            [.key "conditions", .index i]) := by
        simp [steps]
      rw [text_condition_concat, hsteps]
      exact .entry i ih

/-! ## Reading order -/

/-- Where reading comes to a place: places are read in the lexicographic order of these lists,
so a group comes before its entries, and those from left to right. -/
def position : Location → List Nat
  | .document => []
  | .condition path => 0 :: path
  | .actions branch => [branch.turn]
  | .action branch i => [branch.turn, i]

end Location

/-- The items under a key, if there is a list. -/
def Members.itemsUnder (ms : Members) (key : String) : List Value :=
  match ms.get? key with
  | some (.list items) => items
  | _ => []

/-- The entry of a tree that a path leads to. Only groups have entries, so a list that a
condition happens to hold under `conditions` is no part of the tree. -/
def Value.entryAt? : Value → List Nat → Option Value
  | v, [] => some v
  | .object ms, i :: rest =>
    if Members.HasBoth ms "op" "conditions" then
      (Members.itemsUnder ms "conditions")[i]?.bind fun item => entryAt? item rest
    else none
  | _, _ :: _ => none

/-- What stands at a place of the rule that a value is the document of. -/
def Location.node? : Location → Value → Option Value
  | .document, v => some v
  | .condition path, .object ms => (Members.get? ms "if").bind fun tree => tree.entryAt? path
  | .actions branch, .object ms => Members.get? ms branch.key
  | .action branch i, .object ms => (Members.itemsUnder ms branch.key)[i]?
  | _, _ => none

theorem Members.itemsUnder_eq {ms : Members} {key : String} {items : List Value}
    (h : ms.get? key = some (.list items)) : ms.itemsUnder key = items := by
  simp only [itemsUnder, h]

theorem Members.get?_of_itemsUnder {ms : Members} {key : String} {i : Nat} {v : Value}
    (h : (ms.itemsUnder key)[i]? = some v) :
    ∃ items, ms.get? key = some (.list items) ∧ items[i]? = some v := by
  unfold itemsUnder at h
  split at h
  · rename_i items hkey
    exact ⟨items, hkey, h⟩
  · cases h

namespace Value

theorem reach?_append (v : Value) (steps more : List Step) :
    v.reach? (steps ++ more) = (v.reach? steps).bind fun w => w.reach? more := by
  induction steps generalizing v with
  | nil => rfl
  | cons step steps ih =>
    simp only [List.cons_append, reach?, Option.bind_assoc, ih]

@[simp] theorem entryAt?_nil (v : Value) : v.entryAt? [] = some v := by
  cases v <;> rfl

theorem entryAt?_cons {ms : Members} {items : List Value}
    (hop : ms.contains "op" = true) (hitems : ms.get? "conditions" = some (.list items))
    (i : Nat) (rest : List Nat) :
    (Value.object ms).entryAt? (i :: rest) = items[i]?.bind fun item => item.entryAt? rest := by
  rw [entryAt?, if_pos ⟨hop, Members.contains_of_get? hitems⟩, Members.itemsUnder_eq hitems]

theorem reach?_of_entryAt? {v w : Value} {path : List Nat} (h : v.entryAt? path = some w) :
    v.reach? (path.flatMap fun i => [.key "conditions", .index i]) = some w := by
  induction path generalizing v with
  | nil =>
    rw [entryAt?_nil] at h
    exact h
  | cons i path ih =>
    cases v with
    | object ms =>
      rw [entryAt?] at h
      split at h
      · obtain ⟨item, hitem, hrest⟩ := Option.bind_eq_some_iff.mp h
        obtain ⟨items, hitems, hi⟩ := Members.get?_of_itemsUnder hitem
        rw [List.flatMap_cons, reach?_append]
        simp only [reach?, enter?, hitems, hi, Option.bind_some]
        exact ih hrest
      · cases h
    | _ => cases h

end Value

theorem Location.reach?_of_node? {location : Location} {v w : Value}
    (h : location.node? v = some w) : v.reach? location.steps = some w := by
  cases location with
  | document => exact h
  | condition path =>
    cases v with
    | object ms =>
      obtain ⟨tree, htree, hpath⟩ := Option.bind_eq_some_iff.mp h
      simp only [steps, Value.reach?, Value.enter?, htree, Option.bind_some]
      exact Value.reach?_of_entryAt? hpath
    | _ => cases h
  | actions branch =>
    cases v with
    | object ms =>
      have hkey : Members.get? ms branch.key = some w := h
      simp only [steps, Value.reach?, Value.enter?, hkey, Option.bind_some]
    | _ => cases h
  | action branch i =>
    cases v with
    | object ms =>
      obtain ⟨items, hitems, hi⟩ := Members.get?_of_itemsUnder h
      simp only [steps, Value.reach?, Value.enter?, hitems, hi, Option.bind_some]
    | _ => cases h

/-! ## What has to stand at a place -/

/-- The members that make a group, apart from what the entries are like. -/
structure Members.IsGroupHead (ms : Members) : Prop where
  connective : ms.HasWord Connective "op"
  entries : ∃ items, ms.get? "conditions" = some (.list items)

/-- A version is a whole number of 32 bits, if there is one. -/
def Members.VersionInOrder (ms : Members) : Prop :=
  ∀ v, ms.get? "version" = some v →
    ∃ x, v = .number x ∧ Binary64.IsWholeBetween (-2 ^ 31) (2 ^ 31 - 1) x

/-- What stands at a place is as the language of rules has it there, nested parts apart. The
root of the tree is a group, and so is an entry with both keys of groups; groups stand on the
first eight levels only. -/
def Location.InOrder : Location → Value → Prop
  | .document, v => ∃ ms, v = .object ms ∧ Members.VersionInOrder ms ∧
    Members.contains ms "if" = true ∧ Members.contains ms "then" = true
  | .condition path, v => ∃ ms, v = .object ms ∧
    if path = [] ∨ Members.HasBoth ms "op" "conditions" then
      path.length < 8 ∧ Members.IsGroupHead ms
    else Members.HasBoth ms "field" "operator" ∧ IsCondition ms
  | .actions .thenBranch, v => ∃ items, v = .list items
  | .actions .elseBranch, v => v = .null ∨ ∃ items, v = .list items
  | .action _ _, v => ∃ ms, v = .object ms ∧ IsAction ms

namespace Location
variable {path : List Nat} {ms : Members}

theorem inOrder_group_iff (hgroup : path = [] ∨ ms.HasBoth "op" "conditions") :
    (condition path).InOrder (.object ms) ↔ path.length < 8 ∧ ms.IsGroupHead := by
  constructor
  · rintro ⟨ms', hms, h⟩
    obtain rfl := Value.object.inj hms
    rwa [if_pos hgroup] at h
  · intro h
    exact ⟨ms, rfl, by rwa [if_pos hgroup]⟩

theorem inOrder_condition_iff (hpath : path ≠ []) (hno : ¬ ms.HasBoth "op" "conditions") :
    (condition path).InOrder (.object ms) ↔ ms.HasBoth "field" "operator" ∧ IsCondition ms := by
  have hnot : ¬ (path = [] ∨ ms.HasBoth "op" "conditions") := not_or.mpr ⟨hpath, hno⟩
  constructor
  · rintro ⟨ms', hms, h⟩
    obtain rfl := Value.object.inj hms
    rwa [if_neg hnot] at h
  · intro h
    exact ⟨ms, rfl, by rwa [if_neg hnot]⟩

end Location

/-! ## Reading up to a place -/

namespace Location

def Required : Location → Prop
  | .document => True
  | .condition path => path = []
  | .actions branch => branch = .thenBranch
  | .action _ _ => False

/-- A place is there if it has to be, and what stands there is in order. -/
def InOrderIn (location : Location) (v : Value) : Prop :=
  (location.Required → ∃ w, location.node? v = some w) ∧
    ∀ w, location.node? v = some w → location.InOrder w

theorem position_eq_nil {location : Location} : location.position = [] ↔ location = .document := by
  cases location <;> simp [position]

theorem eq_of_position_eq_zero_cons {location : Location} {rest : List Nat}
    (h : location.position = 0 :: rest) : location = .condition rest := by
  cases location with
  | document => cases h
  | condition path => rw [(List.cons.inj h).2]
  | actions branch => cases branch <;> cases h
  | action branch i => cases branch <;> cases h

theorem eq_of_position_eq_turn_cons {location : Location} {branch : Branch} {rest : List Nat}
    (h : location.position = branch.turn :: rest) :
    location = .actions branch ∧ rest = [] ∨ ∃ i, location = .action branch i ∧ rest = [i] := by
  cases location with
  | document => cases h
  | condition path => cases branch <;> cases h
  | actions other =>
    left
    cases branch <;> cases other <;> cases h <;> exact ⟨rfl, rfl⟩
  | action other i =>
    right
    refine ⟨i, ?_⟩
    cases branch <;> cases other <;> cases h <;> exact ⟨rfl, rfl⟩

section InObject
variable {ms : Members}

theorem inOrderIn_condition {tree : Value} {path : List Nat} (htree : ms.get? "if" = some tree)
    (h : ∀ w, tree.entryAt? path = some w → (condition path).InOrder w) :
    (condition path).InOrderIn (.object ms) := by
  have hnode : (condition path).node? (.object ms) = tree.entryAt? path := by
    simp only [node?, htree, Option.bind_some]
  rw [InOrderIn, hnode]
  refine ⟨?_, h⟩
  intro hpath
  exact ⟨tree, hpath ▸ Value.entryAt?_nil tree⟩

theorem inOrderIn_actions {branch : Branch} {v : Value} (hkey : ms.get? branch.key = some v)
    (h : (actions branch).InOrder v) : (actions branch).InOrderIn (.object ms) := by
  refine ⟨fun _ => ⟨v, hkey⟩, ?_⟩
  intro w hw
  obtain rfl := Option.some.inj (hkey.symm.trans hw)
  exact h

theorem inOrderIn_action {branch : Branch} {items : List Value} {i : Nat}
    (hkey : ms.get? branch.key = some (.list items))
    (h : ∀ w, items[i]? = some w → (action branch i).InOrder w) :
    (action branch i).InOrderIn (.object ms) := by
  refine ⟨False.elim, ?_⟩
  intro w hw
  rw [node?, Members.itemsUnder_eq hkey] at hw
  exact h w hw

end InObject
end Location

/-- What is read of a document before this turn is in order: of its members the version is
read first, and then come its places. -/
structure Value.InOrderBefore (v : Value) (turn : List Nat) : Prop where
  version : turn ≠ [] → ∃ ms, v = .object ms ∧ Members.VersionInOrder ms
  places : ∀ location : Location, location ≠ .document → location.position < turn →
    location.InOrderIn v

namespace Value.InOrderBefore
variable {v : Value}

theorem nil (v : Value) : v.InOrderBefore [] where
  version h := absurd rfl h
  places _ _ h := absurd h (List.not_lt_nil _)

theorem start {ms : Members} (hversion : ms.VersionInOrder) :
    (Value.object ms).InOrderBefore [0] where
  version _ := ⟨ms, rfl, hversion⟩
  places location hne h := by
    cases location with
    | document => exact absurd rfl hne
    | condition path => simp [Location.position] at h
    | actions branch => simp [Location.position, List.cons_lt_cons_iff] at h
    | action branch i => simp [Location.position, List.cons_lt_cons_iff] at h

theorem of_turn_lt {turn first : Nat} {rest : List Nat} {location : Location}
    (h : v.InOrderBefore [turn]) (hposition : location.position = first :: rest)
    (hlt : first < turn) : location.InOrderIn v := by
  refine h.places location ?_ ?_
  · rintro rfl
    cases hposition
  · rw [hposition]
    exact List.cons_lt_cons_iff.mpr (Or.inl hlt)

/-- Before a place are the earlier turns and what comes before it in its own turn. -/
theorem advance {turn : Nat} {rest : List Nat} (h : v.InOrderBefore [turn])
    (hplaces : ∀ (location : Location) (before : List Nat),
      location.position = turn :: before → before < rest → location.InOrderIn v) :
    v.InOrderBefore (turn :: rest) where
  version _ := h.version (List.cons_ne_nil _ _)
  places location hne hlt := by
    cases hposition : location.position with
    | nil => exact absurd (Location.position_eq_nil.mp hposition) hne
    | cons first before =>
      rw [hposition] at hlt
      rcases List.cons_lt_cons_iff.mp hlt with hearlier | ⟨rfl, hbefore⟩
      · exact h.of_turn_lt hposition hearlier
      · exact hplaces location before hposition hbefore

theorem next {turn : Nat} (h : v.InOrderBefore [turn])
    (hplaces : ∀ (location : Location) (before : List Nat),
      location.position = turn :: before → location.InOrderIn v) :
    v.InOrderBefore [turn + 1] where
  version _ := h.version (List.cons_ne_nil _ _)
  places location hne hlt := by
    cases hposition : location.position with
    | nil => exact absurd (Location.position_eq_nil.mp hposition) hne
    | cons first before =>
      rw [hposition] at hlt
      rcases List.cons_lt_cons_iff.mp hlt with hearlier | ⟨-, hbefore⟩
      · rcases Nat.lt_succ_iff_lt_or_eq.mp hearlier with hfirst | rfl
        · exact h.of_turn_lt hposition hfirst
        · exact hplaces location before hposition
      · exact absurd hbefore (List.not_lt_nil before)

end Value.InOrderBefore
end Underwriting
