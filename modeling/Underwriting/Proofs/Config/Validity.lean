import Mathlib.Data.List.Forall2
import Underwriting.Config.Load
import Underwriting.Json.Strict
import Underwriting.Proofs.Rule.WellFormed
import Underwriting.Proofs.RuleSet.Identifiers
import Underwriting.Yaml.Standard

/-! # Loaded configurations

Whatever the files hold, a configuration that loads is one that a provider can start with:
its numbers are in range, its rules are well formed and go by different identifiers, and the
set of its rules is built without a refusal and holds just these rules.
-/
namespace Underwriting

structure RuleSpec.Valid (spec : RuleSpec) : Prop where
  id : spec.id ≠ ""
  priority : 0 ≤ spec.priority.toInt ∧ spec.priority.toInt ≤ 100
  logic : spec.logic.WellFormed

structure Config.Valid (c : Config) : Prop where
  workers : 1 ≤ c.workers ∧ c.workers ≤ 64
  ids : (c.rules.map (·.id)).Nodup
  rules : ∀ spec ∈ c.rules, spec.Valid

theorem except_throw_if_eq_ok {α β ε : Type} {p : Prop} [Decidable p] {e : ε}
    {k : β → Except ε α} {rest : Except ε α} {a : α} :
    (if p then throw e >>= k else rest) = .ok a ↔ ¬ p ∧ rest = .ok a := by
  have hthrow : (throw e >>= k) = .error e := rfl
  split
  · rename_i hp
    simp [hthrow, hp]
  · rename_i hp
    simp [hp]

/-! ## Logic from files -/

namespace Logic
variable {yaml : Yaml.Library} {json : Json.Library}

theorem wellFormed_of_ofNode {n : Yaml.Node} {l : Logic} (h : ofNode yaml n = .ok l) :
    l.WellFormed := by
  rw [ofNode] at h
  split at h
  · cases h
  · exact wellFormed_of_ofValue (except_mapError_eq_ok.mp h)

theorem wellFormed_of_load {files : Files} {path : String} {l : Logic}
    (h : load yaml json files path = .ok l) : l.WellFormed := by
  rw [load] at h
  split at h
  · split at h
    · cases h
    · obtain ⟨v, -, hread⟩ := ofJson_eq_ok_iff.mp (except_mapError_eq_ok.mp h)
      exact wellFormed_of_ofValue hread
  · split at h
    · cases h
    · exact wellFormed_of_ofNode h

end Logic

/-! ## Entries of the list of rules -/

namespace RuleSpec
variable {yaml : Yaml.Library} {json : Json.Library} {files : Files} {directory : String}

theorem wellFormed_of_load {source : Source} {file : Option String} {l : Logic}
    (h : source.load yaml json files directory = .ok (file, l)) : l.WellFormed := by
  cases source with
  | file n =>
    simp only [Source.load, except_bind_eq_ok, except_pure_eq_ok] at h
    obtain ⟨path, -, l', hload, hpair⟩ := h
    cases hpair
    exact Logic.wellFormed_of_load hload
  | inline n =>
    simp only [Source.load, except_bind_eq_ok, except_pure_eq_ok] at h
    obtain ⟨l', hread, hpair⟩ := h
    cases hpair
    exact Logic.wellFormed_of_ofNode hread

theorem valid_of_ofNode {n : Yaml.Node} {spec : RuleSpec}
    (h : ofNode yaml json files directory n = .ok spec) : spec.Valid := by
  simp only [ofNode, except_throw_if_eq_ok, except_bind_eq_ok, except_pure_eq_ok,
    except_mapError_eq_ok] at h
  obtain ⟨-, id?, -, -, source, -, ⟨id, name, priority, enabled⟩, -, hid, hpriority, ⟨file, l⟩,
    hlogic, rfl⟩ := h
  have hwithin : ¬ (priority.toInt < 0 ∨ (maxPriority : Int) < priority.toInt) := hpriority
  have hmax : (maxPriority : Int) = 100 := rfl
  have hrange : 0 ≤ priority.toInt ∧ priority.toInt ≤ 100 := by omega
  exact ⟨hid, hrange, wellFormed_of_load hlogic⟩

end RuleSpec

namespace Config
variable {yaml : Yaml.Library} {json : Json.Library} {files : Files} {directory : String}

/-! ## The list of rules -/

/-- The entries that are read come behind those that were read already, in the order of their
nodes, and no identifier comes twice. -/
theorem exists_of_readRules {nodes : List Yaml.Node} {done rules : List RuleSpec} {i : Nat}
    (h : readRules yaml json files directory done i nodes = .ok rules) :
    ∃ new, rules = done ++ new ∧
      List.Forall₂ (fun n spec => RuleSpec.ofNode yaml json files directory n = .ok spec)
        nodes new ∧
      ((done.map (·.id)).Nodup → (rules.map (·.id)).Nodup) := by
  induction nodes generalizing done i with
  | nil =>
    obtain rfl := Except.ok.inj h
    exact ⟨[], (List.append_nil done).symm, .nil, id⟩
  | cons n nodes ih =>
    rw [readRules] at h
    split at h
    · cases h
    · rename_i spec hspec
      split at h
      · cases h
      · rename_i hnew
        obtain ⟨new, rfl, hnodes, hnodup⟩ := ih h
        refine ⟨spec :: new, by simp, .cons hspec hnodes, ?_⟩
        intro hdone
        apply hnodup
        rw [List.map_append, List.map_singleton, ← List.concat_eq_append]
        refine List.Nodup.concat ?_ hdone
        intro htaken
        obtain ⟨r, hr, hid⟩ := List.mem_map.mp htaken
        exact hnew (List.any_eq_true.mpr ⟨r, hr, decide_eq_true hid⟩)

/-! ## Loading -/

theorem workers_of_readWorkers {root : Yaml.Node} {w : Nat} (h : readWorkers yaml root = .ok w) :
    1 ≤ w ∧ w ≤ 64 := by
  have hdefault {w : Nat} (h : (pure minWorkers : Except Error Nat) = .ok w) : 1 ≤ w ∧ w ≤ 64 := by
    obtain rfl := except_pure_eq_ok.mp h
    decide
  obtain ⟨section?, -, h⟩ := except_bind_eq_ok.mp h
  split at h
  · exact hdefault h
  · obtain ⟨workers?, -, h⟩ := except_bind_eq_ok.mp h
    split at h
    · exact hdefault h
    · split at h
      · cases h
      · rename_i w hw
        split at h
        · rename_i hrange
          obtain rfl := except_pure_eq_ok.mp h
          have hmin : (minWorkers : Int) = 1 := rfl
          have hmax : (maxWorkers : Int) = 64 := rfl
          omega
        · cases h

theorem exists_nodes_of_load {path : String} {c : Config}
    (h : load yaml json files path = .ok c) :
    ∃ root nodes, files.document path = .ok root ∧ readWorkers yaml root = .ok c.workers ∧
      ruleNodes yaml root = .ok nodes ∧
      readRules yaml json files (FilePath.parent (FilePath.join files.directory path)) [] 0 nodes =
        .ok c.rules := by
  simp only [load, except_bind_eq_ok, except_pure_eq_ok, except_mapError_eq_ok] at h
  obtain ⟨root, hroot, providerName, -, workers, hworkers, systemPrompt, -, nodes, hnodes, rules,
    hrules, rfl⟩ := h
  exact ⟨root, nodes, hroot, hworkers, hnodes, hrules⟩

/-! ## The set of rules -/

theorem addRules_eq_ok {specs : List RuleSpec} {s : RuleSet}
    (hnew : ∀ spec ∈ specs, ∀ r ∈ s.rules, r.id ≠ spec.id)
    (hnodup : (specs.map (·.id)).Nodup) :
    addRules s specs = .ok ⟨s.rules ++ specs.map toRule⟩ := by
  induction specs generalizing s with
  | nil => rw [addRules, List.map_nil, List.append_nil]
  | cons spec specs ih =>
    obtain ⟨hfirst, hothers⟩ := List.forall_mem_cons.mp hnew
    rw [List.map_cons, List.nodup_cons] at hnodup
    have hlater : ∀ other ∈ specs, ∀ r ∈ s.rules ++ [toRule spec], r.id ≠ other.id := by
      intro other hother r hr
      rcases List.mem_append.mp hr with hr | hr
      · exact hothers other hother r hr
      · obtain rfl := List.mem_singleton.mp hr
        intro hid
        exact hnodup.1 (List.mem_map.mpr ⟨other, hother, hid.symm⟩)
    have hadd : s.add (toRule spec) = (none, ⟨s.rules ++ [toRule spec]⟩) :=
      RuleSet.add_of_new hfirst
    rw [addRules, hadd]
    simpa using ih (s := ⟨s.rules ++ [toRule spec]⟩) hlater hnodup.2

/-- A configuration that loads is valid. Its rules are those that the nodes of the document's
list give, in that order, and the set of these rules is built: it holds them in the same order,
each under its name or else its identifier. -/
theorem load_valid {path : String} {c : Config} (h : load yaml json files path = .ok c) :
    c.Valid ∧
      (∃ root nodes, files.document path = .ok root ∧ ruleNodes yaml root = .ok nodes ∧
        List.Forall₂ (fun n spec => RuleSpec.ofNode yaml json files
          (FilePath.parent (FilePath.join files.directory path)) n = .ok spec) nodes c.rules) ∧
      ∃ s, c.ruleSet = .ok s ∧ s.rules = c.rules.map fun spec =>
        { id := spec.id, name := if spec.name = "" then spec.id else spec.name,
          priority := spec.priority, enabled := spec.enabled, logic := spec.logic } := by
  obtain ⟨root, nodes, hroot, hworkers, hnodes, hrules⟩ := exists_nodes_of_load h
  obtain ⟨new, hnew, hread, hnodup⟩ := exists_of_readRules hrules
  obtain rfl : c.rules = new := hnew
  have hids : (c.rules.map (·.id)).Nodup := hnodup List.nodup_nil
  have hvalid : ∀ spec ∈ c.rules, spec.Valid := by
    have hboth := hread.imp fun n spec hn => And.intro (RuleSpec.valid_of_ofNode hn) hn
    exact ((List.forall₂_and_left _ _).mp hboth.flip).1
  refine ⟨⟨workers_of_readWorkers hworkers, hids, hvalid⟩, ⟨root, nodes, hroot, hnodes, hread⟩, ?_⟩
  have hbuilt := addRules_eq_ok (s := .empty) (fun spec _ r hr => by cases hr) hids
  exact ⟨_, hbuilt, List.nil_append _⟩

/-- Two rules, of which one is in a file of its own. -/
def homeDocument : Yaml.Node :=
  .map
    [(.plain "evaluation", .map [(.plain "workers", .plain "0x10")]),
      (.plain "rules", .sequence
        [.map
            [(.plain "id", .plain "roof"), (.plain "priority", .plain "100"),
              (.plain "logic_file", .plain "rules/roof.json")],
          .map
            [(.plain "id", .plain "flood"), (.plain "name", .quoted "Flood zone"),
              (.plain "enabled", .plain "Off"),
              (.plain "logic", .map
                [(.plain "if", .map [(.plain "op", .plain "OR"),
                    (.plain "conditions", .sequence [])]),
                  (.plain "then", .sequence [.map [(.plain "type", .plain "block")]])])]])]

def roofText : String :=
  "\x7b\"if\":\x7b\"op\":\"AND\",\"conditions\":[" ++
    "\x7b\"field\":\"roof\",\"operator\":\"exists\"\x7d]\x7d,\"then\":[]\x7d"

def homeFiles : Files where
  directory := "/srv"
  text? path := if path = "/srv/rules/roof.json" then some roofText else none
  document path := if path = "home.yaml" then .ok homeDocument else .error ⟨"bad file"⟩

theorem load_homeFiles :
    ∃ c, load Yaml.standard Json.strict homeFiles "home.yaml" = .ok c ∧ c.Valid ∧ c.workers = 16 ∧
      ∃ s, c.ruleSet = .ok s ∧ s.rules.map (fun r => (r.name, r.enabled)) =
        [("roof", true), ("Flood zone", false)] := by
  have hread : ((load Yaml.standard Json.strict homeFiles "home.yaml").toOption.map fun c =>
      (c.workers, c.rules.map fun spec => (spec.id, spec.name, spec.enabled))) =
        some (16, [("roof", "", true), ("flood", "Flood zone", false)]) := by decide +kernel
  cases hload : load Yaml.standard Json.strict homeFiles "home.yaml" with
  | error e =>
    rw [hload] at hread
    cases hread
  | ok c =>
    rw [hload] at hread
    obtain ⟨hworkers, hrules⟩ := Prod.mk.inj (Option.some.inj hread)
    obtain ⟨hvalid, -, s, hset, hs⟩ := load_valid hload
    refine ⟨c, rfl, hvalid, hworkers, s, hset, ?_⟩
    have hnames := congrArg (List.map fun spec : String × String × Bool =>
      (if spec.2.1 = "" then spec.1 else spec.2.1, spec.2.2)) hrules
    rw [hs, List.map_map]
    rw [List.map_map] at hnames
    exact hnames

end Config
end Underwriting
