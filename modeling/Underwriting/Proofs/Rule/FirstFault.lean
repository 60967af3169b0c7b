import Underwriting.Proofs.Rule.Places

/-! # Errors point at the first offence

A document that is refused is refused at a place that is there. What stands at that place is
not in order by itself, the fault says why, and all that reading came to before is in order.
-/
namespace Underwriting

namespace DecodeError

/-- How far reading had come. A missing member of the document is noticed where it would have
been read. -/
def reached (e : DecodeError) : List Nat :=
  if e = ⟨.document, .missing "if"⟩ then [0]
  else if e = ⟨.document, .missing "then"⟩ then [1]
  else e.location.position

/-- What stands at the place is not in order, and the fault says why. -/
structure Explains (e : DecodeError) (v : Value) : Prop where
  notInOrder : ¬ e.location.InOrder v
  found : e.fault.FoundAt e.location v

theorem reached_eq_position {e : DecodeError} (h : e.location ≠ .document) :
    e.reached = e.location.position := by
  unfold reached
  rw [if_neg, if_neg]
  · rintro rfl
    exact h rfl
  · rintro rfl
    exact h rfl

end DecodeError

/-! ## Lists -/

section Lists
variable {α ε : Type} {read : Nat → Value → Except ε α}

theorem exists_of_readEach_eq_error {vs : List Value} {i : Nat} {e : ε}
    (h : readEach read i vs = .error e) :
    ∃ j w, vs[j]? = some w ∧ read (i + j) w = .error e ∧
      ∀ k u, k < j → vs[k]? = some u → ∃ a, read (i + k) u = .ok a := by
  induction vs generalizing i with
  | nil => cases h
  | cons v vs ih =>
    rw [readEach] at h
    cases hread : read i v with
    | error e' =>
      rw [hread] at h
      obtain rfl := Except.error.inj h
      refine ⟨0, v, rfl, hread, ?_⟩
      intro k u hk
      exact absurd hk (Nat.not_lt_zero k)
    | ok a =>
      cases hrest : readEach read (i + 1) vs with
      | ok as =>
        rw [hread, hrest] at h
        cases h
      | error e' =>
        rw [hread, hrest] at h
        obtain rfl := Except.error.inj h
        obtain ⟨j, w, hw, hrefused, hbefore⟩ := ih hrest
        refine ⟨j + 1, w, hw, ?_, ?_⟩
        · rw [Nat.add_comm j 1, ← Nat.add_assoc]
          exact hrefused
        · intro k u hk hu
          cases k with
          | zero =>
            obtain rfl := Option.some.inj hu
            exact ⟨a, hread⟩
          | succ k =>
            rw [Nat.add_comm k 1, ← Nat.add_assoc]
            exact hbefore k u (Nat.lt_of_succ_lt_succ hk) hu

end Lists

/-! ## Trees -/

theorem Members.isGroupHead_iff {ms : Members} :
    ms.IsGroupHead ↔ (∃ w : Connective, ms.word "op" = .ok w) ∧
      ∃ items, ms.list "conditions" = .ok items := by
  simp only [exists_word_iff, list_eq_ok]
  constructor
  · intro h
    exact ⟨h.connective, h.entries⟩
  · rintro ⟨hop, hitems⟩
    exact ⟨hop, hitems⟩

/-- Everything in the part of a tree that starts at a path is in order. -/
def Value.InOrderBelow (v : Value) (path : List Nat) : Prop :=
  ∀ (below : List Nat) (w : Value), v.entryAt? below = some w →
    (Location.condition (path ++ below)).InOrder w

/-- Entries of the language are in order throughout, where their groups are within the levels
that are left. -/
theorem IsEntry.inOrderBelow {v : Value} {path : List Nat} (hentry : IsEntry v)
    (hroot : path = [] → IsGroup v) (hdepth : path.length + v.groupDepth ≤ 8) :
    v.InOrderBelow path := by
  intro below w h
  induction below generalizing path v with
  | nil =>
    rw [Value.entryAt?_nil] at h
    obtain rfl := Option.some.inj h
    rw [List.append_nil]
    cases hentry with
    | @group ms hkeys hgroup =>
      have hpos := hgroup.groupDepth_pos
      obtain ⟨hop, hitems, -⟩ := hgroup
      exact (Location.inOrder_group_iff (Or.inr hkeys)).mpr ⟨by omega, hop, _, hitems⟩
    | @condition ms hno hkeys hcondition =>
      refine (Location.inOrder_condition_iff ?_ hno).mpr ⟨hkeys, hcondition⟩
      intro hpath
      obtain ⟨⟨_, hop⟩, hitems, -⟩ := hroot hpath
      exact hno ⟨Members.contains_of_get? hop, Members.contains_of_get? hitems⟩
  | cons i below ih =>
    cases hentry with
    | @group ms hkeys hgroup =>
      obtain @⟨_, items, hop, hitems, hall⟩ := hgroup
      rw [Value.entryAt?_cons hkeys.1 hitems] at h
      obtain ⟨item, hitem, hbelow⟩ := Option.bind_eq_some_iff.mp h
      have hmem : item ∈ items := List.mem_of_getElem? hitem
      have hitemDepth : (path ++ [i]).length + item.groupDepth ≤ 8 := by
        obtain ⟨n, hn⟩ : ∃ n, (Value.object ms).groupDepth = n + 1 :=
          ⟨Value.conditionsDepth ms, by rw [Value.groupDepth, if_pos hkeys]⟩
        have hle := (Value.groupDepth_group_le hkeys.1 hitems).mp hn.le item hmem
        rw [List.length_append, List.length_singleton]
        omega
      rw [List.append_cons]
      exact ih (hall item hmem) (by simp) hitemDepth hbelow
    | condition hno =>
      rw [Value.entryAt?, if_neg hno] at h
      cases h

def DecodeError.IsFirstBelow (e : DecodeError) (path : List Nat) (v : Value) : Prop :=
  ∃ below w, e.location = .condition (path ++ below) ∧ v.entryAt? below = some w ∧
    e.Explains w ∧ ∀ q u, q < below → v.entryAt? q = some u →
      (Location.condition (path ++ q)).InOrder u

/-- An error about an entry itself is at the first offence below. -/
theorem DecodeError.isFirstBelow_self {e : DecodeError} {path : List Nat} {v : Value}
    (hlocation : e.location = .condition path) (h : e.Explains v) : e.IsFirstBelow path v := by
  refine ⟨[], v, by rw [List.append_nil, hlocation], Value.entryAt?_nil v, h, ?_⟩
  intro q u hq
  exact absurd hq (List.not_lt_nil q)

theorem DecodeError.isFirstBelow_of_expect {e : DecodeError} {path : List Nat} {v : Value}
    (hlocation : e.location = .condition path) (h : Members.expect v = .error e.fault) :
    e.IsFirstBelow path v := by
  refine isFirstBelow_self hlocation ⟨?_, Members.foundAt_of_expect h _⟩
  rw [hlocation]
  rintro ⟨ms, rfl, -⟩
  exact not_exists_ok_of_eq_error h ⟨ms, rfl⟩

/-- A group is refused for its own members only where they are not those of a group. -/
theorem DecodeError.isFirstBelow_of_head {e : DecodeError} {path : List Nat} {ms : Members}
    (hlocation : e.location = .condition path)
    (hgroup : path = [] ∨ ms.HasBoth "op" "conditions") (hhead : ¬ ms.IsGroupHead)
    (hfound : e.fault.FoundIn ms) : e.IsFirstBelow path (.object ms) := by
  refine isFirstBelow_self hlocation ⟨?_, hfound.foundAt _⟩
  rw [hlocation]
  intro hinOrder
  exact hhead ((Location.inOrder_group_iff hgroup).mp hinOrder).2

/-- A group whose own members are in order hands an error in one of its entries on. -/
theorem DecodeError.IsFirstBelow.of_entry {e : DecodeError} {path : List Nat} {ms : Members}
    {items : List Value} {j : Nat} {item : Value} (hop : ms.contains "op" = true)
    (hitems : ms.get? "conditions" = some (.list items))
    (hself : (Location.condition path).InOrder (.object ms)) (hitem : items[j]? = some item)
    (hbefore : ∀ k u, k < j → items[k]? = some u → u.InOrderBelow (path ++ [k]))
    (h : e.IsFirstBelow (path ++ [j]) item) : e.IsFirstBelow path (.object ms) := by
  have hat := Value.entryAt?_cons hop hitems
  obtain ⟨below, w, hlocation, hw, hexplains, hearlier⟩ := h
  refine ⟨j :: below, w, ?_, ?_, hexplains, ?_⟩
  · rw [hlocation, ← List.append_cons]
  · rw [hat, hitem, Option.bind_some, hw]
  · intro q u hq hu
    cases q with
    | nil =>
      rw [Value.entryAt?_nil] at hu
      obtain rfl := Option.some.inj hu
      rw [List.append_nil]
      exact hself
    | cons k q =>
      rw [hat] at hu
      obtain ⟨item', hk, hu⟩ := Option.bind_eq_some_iff.mp hu
      rw [List.append_cons]
      rcases List.cons_lt_cons_iff.mp hq with hlt | ⟨rfl, hlt⟩
      · exact hbefore k item' hlt hk q u hu
      · rw [hitem] at hk
        obtain rfl := Option.some.inj hk
        exact hearlier q u hlt hu

theorem Entry.isFirstBelow_of_ofValue
    {nested : Location → Value → Except DecodeError ConditionGroup} {path : List Nat}
    {v : Value} {e : DecodeError} (hpath : path ≠ [])
    (hnested : ∀ ms, Members.HasBoth ms "op" "conditions" →
      nested (.condition path) (.object ms) = .error e → e.IsFirstBelow path (.object ms))
    (h : Entry.ofValue nested (.condition path) v = .error e) : e.IsFirstBelow path v := by
  simp only [ofValue, except_bind_eq_error, Location.check_eq_error, Location.check_eq_ok,
    Members.expect_eq_ok] at h
  rcases h with ⟨hlocation, hexpect⟩ | ⟨ms, rfl, ⟨hlocation, hshape⟩ | ⟨shape, hshape, h⟩⟩
  · exact DecodeError.isFirstBelow_of_expect hlocation hexpect
  · obtain ⟨hfault, hno, hneither⟩ := Shape.ofMembers_eq_error.mp hshape
    refine DecodeError.isFirstBelow_self hlocation ⟨?_, ?_⟩
    · rw [hlocation, Location.inOrder_condition_iff hpath hno]
      intro hinOrder
      exact hneither hinOrder.1
    · rw [hfault]
      exact ⟨ms, rfl, hno, hneither⟩
  · cases shape with
    | group =>
      simp only [except_bind_eq_error, except_pure_ne_error, and_false, exists_false,
        or_false] at h
      exact hnested ms (Shape.ofMembers_eq_group.mp hshape) h
    | condition =>
      simp only [except_bind_eq_error, except_pure_ne_error, and_false, exists_false,
        or_false, Location.check_eq_error] at h
      obtain ⟨hlocation, hfault⟩ := h
      obtain ⟨hno, -⟩ := Shape.ofMembers_eq_condition.mp hshape
      refine DecodeError.isFirstBelow_self hlocation
        ⟨?_, (Condition.foundIn_of_ofMembers hfault).foundAt _⟩
      rw [hlocation, Location.inOrder_condition_iff hpath hno]
      intro hinOrder
      exact not_exists_ok_of_eq_error hfault (Condition.exists_ofMembers_iff.mpr hinOrder.2)

/-- Errors in a tree, by induction on the levels that are left: with the length of the path
they make eight. -/
theorem ConditionGroup.isFirstBelow_of_ofValue {levels : Nat} {path : List Nat} {v : Value}
    {e : DecodeError} (hlevels : path.length + levels = 8)
    (hgroup : path = [] ∨ ∃ ms, v = .object ms ∧ Members.HasBoth ms "op" "conditions")
    (h : ConditionGroup.ofValue levels (.condition path) v = .error e) :
    e.IsFirstBelow path v := by
  induction levels generalizing path v with
  | zero =>
    obtain rfl := Except.error.inj h
    refine DecodeError.isFirstBelow_self rfl ⟨?_, path, rfl, hlevels⟩
    intro hinOrder
    rcases hgroup with rfl | ⟨ms, rfl, hkeys⟩
    · cases hlevels
    · have := ((Location.inOrder_group_iff (Or.inr hkeys)).mp hinOrder).1
      omega
  | succ levels ih =>
    simp only [ofValue, except_bind_eq_error, except_pure_ne_error, and_false, exists_false,
      or_false, Location.check_eq_error, Location.check_eq_ok, Members.expect_eq_ok] at h
    rcases h with ⟨hlocation, hexpect⟩ | ⟨ms, rfl, h⟩
    · exact DecodeError.isFirstBelow_of_expect hlocation hexpect
    have hgroup' : path = [] ∨ ms.HasBoth "op" "conditions" := by
      refine hgroup.imp_right ?_
      rintro ⟨ms', hms, hkeys⟩
      obtain rfl := Value.object.inj hms
      exact hkeys
    rcases h with ⟨hlocation, hop⟩ |
      ⟨connective, hop, ⟨hlocation, hconditions⟩ | ⟨items, hitems, h⟩⟩
    · refine DecodeError.isFirstBelow_of_head hlocation hgroup' ?_ (Members.foundIn_of_word hop)
      intro hhead
      exact not_exists_ok_of_eq_error hop (Members.isGroupHead_iff.mp hhead).1
    · refine DecodeError.isFirstBelow_of_head hlocation hgroup' ?_
        (Members.foundIn_of_list hconditions)
      intro hhead
      exact not_exists_ok_of_eq_error hconditions (Members.isGroupHead_iff.mp hhead).2
    · -- the members of the group are in order, and the error is in one of its entries
      have hget := Members.list_eq_ok.mp hitems
      have hcontains := Members.contains_of_get? (Members.word_eq_ok.mp hop)
      have hself : (Location.condition path).InOrder (.object ms) :=
        (Location.inOrder_group_iff hgroup').mpr
          ⟨by omega, Members.isGroupHead_iff.mpr ⟨⟨connective, hop⟩, items, hitems⟩⟩
      have hnext (k : Nat) : path ++ [k] ≠ [] := by simp
      have hlength (k : Nat) : (path ++ [k]).length + levels = 8 := by
        rw [List.length_append, List.length_singleton]
        omega
      obtain ⟨j, item, hitem, hrefused, hbefore⟩ := exists_of_readEach_eq_error h
      simp only [Nat.zero_add, Location.entry] at hrefused hbefore
      refine .of_entry hcontains hget hself hitem ?_ ?_
      · intro k u hk hu
        obtain ⟨hentry, hdepth⟩ := (Entry.exists_ofValue_iff
          (fun w => ConditionGroup.exists_ofValue_iff levels _) u).mp (hbefore k u hk hu)
        have := hlength k
        exact hentry.inOrderBelow (fun hnil => absurd hnil (hnext k)) (by omega)
      · refine Entry.isFirstBelow_of_ofValue (hnext j) ?_ hrefused
        intro ms' hkeys
        exact ih (hlength j) (Or.inr ⟨ms', rfl, hkeys⟩)

/-! ## Actions -/

theorem Action.explains_of_ofValue {branch : Branch} {i : Nat} {v : Value} {e : DecodeError}
    (h : Action.ofValue (.action branch i) v = .error e) :
    e.location = .action branch i ∧ e.Explains v := by
  have hrefused := not_exists_ok_of_eq_error h
  simp only [ofValue, Location.check_eq_error, except_bind_eq_error, Members.expect_eq_ok] at h
  obtain ⟨hlocation, hfault⟩ := h
  refine ⟨hlocation, ?_, ?_⟩
  · rw [hlocation]
    intro hinOrder
    exact hrefused (Action.exists_ofValue_iff.mpr hinOrder)
  · rcases hfault with hexpect | ⟨ms, rfl, hmembers⟩
    · exact Members.foundAt_of_expect hexpect _
    · exact (Action.foundIn_of_ofMembers hmembers).foundAt _

/-! ## Rules -/

structure DecodeError.IsFirstIn (e : DecodeError) (v : Value) : Prop where
  place : ∃ w, e.location.node? v = some w ∧ e.Explains w
  before : v.InOrderBefore e.reached

section Rules
variable {ms : Members} {e : DecodeError}

theorem IsGroup.isEntry {v : Value} (h : IsGroup v) : IsEntry v := by
  obtain @⟨ms, items, ⟨connective, hop⟩, hitems, hall⟩ := h
  exact .group ⟨Members.contains_of_get? hop, Members.contains_of_get? hitems⟩
    (.intro ⟨connective, hop⟩ hitems hall)

/-- With its tree in order, a rule is read up to the actions. -/
theorem inOrderBefore_thenActions {tree : Value} (hversion : ms.VersionInOrder)
    (htree : ms.get? "if" = some tree) (hgroup : IsGroup tree) (hdepth : tree.groupDepth ≤ 8) :
    (Value.object ms).InOrderBefore [Branch.turn .thenBranch] := by
  have hbelow : tree.InOrderBelow [] :=
    hgroup.isEntry.inOrderBelow (fun _ => hgroup) (by simpa using hdepth)
  refine (Value.InOrderBefore.start hversion).next ?_
  intro location path hposition
  rw [Location.eq_of_position_eq_zero_cons hposition]
  exact Location.inOrderIn_condition htree (hbelow path)

theorem DecodeError.IsFirstBelow.isFirstIn {tree : Value} (hversion : ms.VersionInOrder)
    (htree : ms.get? "if" = some tree) (h : e.IsFirstBelow [] tree) :
    e.IsFirstIn (.object ms) := by
  obtain ⟨below, w, hlocation, hw, hexplains, hearlier⟩ := h
  rw [List.nil_append] at hlocation
  refine ⟨⟨w, ?_, hexplains⟩, ?_⟩
  · rw [hlocation, Location.node?, htree, Option.bind_some, hw]
  · rw [e.reached_eq_position (by rw [hlocation]; exact Location.noConfusion), hlocation]
    refine (Value.InOrderBefore.start hversion).advance ?_
    intro location path hposition hpath
    rw [Location.eq_of_position_eq_zero_cons hposition]
    exact Location.inOrderIn_condition htree fun u hu => hearlier path u hpath hu

theorem DecodeError.isFirstIn_of_actionsOfValue {branch : Branch} {v : Value}
    (hbefore : (Value.object ms).InOrderBefore [branch.turn])
    (hkey : ms.get? branch.key = some v) (hnull : branch = .elseBranch → v ≠ .null)
    (h : actionsOfValue branch v = .error e) : e.IsFirstIn (.object ms) := by
  unfold actionsOfValue at h
  split at h
  · rename_i items
    obtain ⟨j, item, hitem, hrefused, hearlier⟩ := exists_of_readEach_eq_error h
    simp only [Nat.zero_add] at hrefused hearlier
    obtain ⟨hlocation, hexplains⟩ := Action.explains_of_ofValue hrefused
    refine ⟨⟨item, ?_, hexplains⟩, ?_⟩
    · rw [hlocation, Location.node?, Members.itemsUnder_eq hkey, hitem]
    · rw [e.reached_eq_position (by rw [hlocation]; exact Location.noConfusion), hlocation]
      refine hbefore.advance ?_
      intro location before hposition hlt
      rcases Location.eq_of_position_eq_turn_cons hposition with ⟨rfl, -⟩ | ⟨i, rfl, rfl⟩
      · refine Location.inOrderIn_actions hkey ?_
        cases branch with
        | thenBranch => exact ⟨items, rfl⟩
        | elseBranch => exact Or.inr ⟨items, rfl⟩
      · refine Location.inOrderIn_action hkey ?_
        intro w hw
        have hi : i < j := by simpa [List.cons_lt_cons_iff] using hlt
        exact Action.exists_ofValue_iff.mp (hearlier i w hi hw)
  · rename_i hne
    obtain rfl := Except.error.inj h
    refine ⟨⟨v, hkey, ?_, hne⟩, hbefore⟩
    cases branch with
    | thenBranch =>
      rintro ⟨items, hitems⟩
      exact hne items hitems
    | elseBranch =>
      rintro (hv | ⟨items, hitems⟩)
      · exact hnull rfl hv
      · exact hne items hitems

/-- With its first actions in order too, a rule is read up to the others. -/
theorem inOrderBefore_elseActions {v : Value}
    (h : (Value.object ms).InOrderBefore [Branch.turn .thenBranch])
    (hkey : ms.get? "then" = some v) (hactions : IsActionList v) :
    (Value.object ms).InOrderBefore [Branch.turn .elseBranch] := by
  obtain ⟨items, rfl, hall⟩ := hactions
  refine h.next ?_
  intro location before hposition
  rcases Location.eq_of_position_eq_turn_cons hposition with ⟨rfl, -⟩ | ⟨i, rfl, -⟩
  · exact Location.inOrderIn_actions hkey ⟨items, rfl⟩
  · exact Location.inOrderIn_action hkey fun w hw => hall w (List.mem_of_getElem? hw)

theorem exists_of_optionalActions_eq_error {branch : Branch} {v : Option Value}
    (h : optionalActions branch v = .error e) :
    ∃ w, v = some w ∧ w ≠ .null ∧ actionsOfValue branch w = .error e := by
  unfold optionalActions at h
  split at h
  · cases h
  · cases h
  · rename_i w hnull
    refine ⟨w, rfl, hnull, ?_⟩
    cases hread : actionsOfValue branch w with
    | ok actions =>
      rw [hread] at h
      cases h
    | error e' =>
      rw [hread] at h
      obtain rfl := Except.error.inj h
      rfl

/-- A member that a document must have is missing, and what is read before it is in order. -/
theorem DecodeError.isFirstIn_missing {key : String} (hkey : key = "if" ∨ key = "then")
    (hmissing : ms.get? key = none)
    (hbefore : (Value.object ms).InOrderBefore (reached ⟨.document, .missing key⟩)) :
    IsFirstIn ⟨.document, .missing key⟩ (.object ms) := by
  refine ⟨⟨.object ms, rfl, ?_, ms, rfl, hmissing⟩, hbefore⟩
  rintro ⟨ms', hms, -, hif, hthen⟩
  obtain rfl := Value.object.inj hms
  have hcontains : ms.contains key = true := by
    rcases hkey with rfl | rfl
    · exact hif
    · exact hthen
  obtain ⟨w, hw⟩ := Members.contains_eq_true.mp hcontains
  cases hmissing.symm.trans hw

theorem Logic.isFirstIn_of_ofValue {v : Value} (h : Logic.ofValue v = .error e) :
    e.IsFirstIn v := by
  obtain ⟨location, fault⟩ := e
  simp only [ofValue, except_bind_eq_error, except_pure_ne_error, and_false, exists_false,
    or_false, Location.check_eq_error, Location.check_eq_ok, Members.expect_eq_ok,
    Members.required_eq_ok, Members.required_eq_error] at h
  rcases h with ⟨rfl, hexpect⟩ | ⟨ms, rfl, h⟩
  · obtain ⟨hfault, hne⟩ := Members.expect_eq_error.mp hexpect
    refine ⟨⟨v, rfl, ?_, Members.foundAt_of_expect hexpect _⟩, ?_⟩
    · rintro ⟨ms, hms, -⟩
      exact hne ms hms
    · rw [hfault]
      exact .nil v
  rcases h with ⟨rfl, hinteger⟩ | ⟨version, hversion, h⟩
  · refine ⟨⟨_, rfl, ?_, (Members.foundIn_of_integer hinteger).foundAt _⟩, ?_⟩
    · rintro ⟨ms', hms, hinOrder, -⟩
      obtain rfl := Value.object.inj hms
      exact not_exists_ok_of_eq_error hinteger ((Members.exists_integer_iff 1).mpr hinOrder)
    · rw [Members.fault_of_integer hinteger]
      exact .nil _
  have hinOrder : ms.VersionInOrder := (Members.exists_integer_iff 1).mp ⟨version, hversion⟩
  rcases h with ⟨rfl, hmissing, rfl⟩ | ⟨tree, htree, h⟩
  · exact DecodeError.isFirstIn_missing (Or.inl rfl) hmissing (.start hinOrder)
  rcases h with htreeError | ⟨condition, hcondition, h⟩
  · exact (ConditionGroup.isFirstBelow_of_ofValue rfl (Or.inl rfl) htreeError).isFirstIn
      hinOrder htree
  obtain ⟨hgroup, hdepth⟩ :=
    (ConditionGroup.exists_ofValue_iff maxGroupDepth .root).mp ⟨condition, hcondition⟩
  have hthenTurn := inOrderBefore_thenActions hinOrder htree hgroup hdepth
  rcases h with ⟨rfl, hmissing, rfl⟩ | ⟨actions, hactions, h⟩
  · exact DecodeError.isFirstIn_missing (Or.inr rfl) hmissing hthenTurn
  rcases h with hthen | ⟨thenActions, hthen, helse⟩
  · exact DecodeError.isFirstIn_of_actionsOfValue hthenTurn hactions (fun h => by cases h) hthen
  · obtain ⟨w, hw, hnull, helse⟩ := exists_of_optionalActions_eq_error helse
    have hthenList := (exists_actionsOfValue_iff .thenBranch).mp ⟨thenActions, hthen⟩
    exact DecodeError.isFirstIn_of_actionsOfValue
      (inOrderBefore_elseActions hthenTurn hactions hthenList) hw (fun _ => hnull) helse

end Rules

/-- An error spells a place that is there. What stands at it is not in order by itself, the
fault says why, and all that is read before it is in order. -/
theorem Logic.error_at_first_offence {v : Value} {e : DecodeError}
    (h : Logic.ofValue v = .error e) :
    e.message = "[RULE LOGIC] " ++ e.location.text ++ ": " ++ e.fault.message ∧
      Location.Spells e.location.text e.location.steps ∧
      (∃ w, e.location.node? v = some w ∧ v.reach? e.location.steps = some w ∧ e.Explains w) ∧
      v.InOrderBefore e.reached := by
  obtain ⟨⟨w, hnode, hexplains⟩, hbefore⟩ := Logic.isFirstIn_of_ofValue h
  exact ⟨rfl, e.location.spells, ⟨w, hnode, Location.reach?_of_node? hnode, hexplains⟩, hbefore⟩

/-- A rule without actions, in which a range two groups down has one end only. -/
def unfinishedRule : Value :=
  .object [("if", .object [("op", .string "OR"), ("conditions", .list [
    .object [("field", .string "risk.year"), ("operator", .string "exists")],
    .object [("op", .string "AND"), ("conditions", .list [
      .object [("field", .string "risk.year"), ("operator", .string "exists")],
      .object [("field", .string "risk.age"), ("operator", .string "between"),
        ("value", .list [.null])]])]])])]

/-- The range is reported, not the missing actions. -/
theorem Logic.error_unfinishedRule :
    Logic.ofValue unfinishedRule = .error ⟨.condition [1, 1], .badRange⟩ ∧
      DecodeError.message ⟨.condition [1, 1], .badRange⟩ =
        "[RULE LOGIC] if.conditions[1].conditions[1]: " ++
          "operator 'between' requires a 2-element [low, high] value" ∧
      (∃ w, unfinishedRule.reach? (Location.condition [1, 1]).steps = some w ∧
        DecodeError.Explains ⟨.condition [1, 1], .badRange⟩ w) ∧
      unfinishedRule.InOrderBefore [0, 1, 1] := by
  have hrefused : Logic.ofValue unfinishedRule = .error ⟨.condition [1, 1], .badRange⟩ := rfl
  obtain ⟨hmessage, -, ⟨w, -, hreach, hexplains⟩, hbefore⟩ :=
    Logic.error_at_first_offence hrefused
  exact ⟨hrefused, hmessage.trans rfl, ⟨w, hreach, hexplains⟩, hbefore⟩

end Underwriting
