import Underwriting.Config.Files
import Underwriting.RuleSet.Basic
import Underwriting.Rule.Decode
import Underwriting.Service.Dispatch

/-! # Configurations

A configuration names the provider, sets it up and lists its rules. It is read from a
YAML document; rules stand in it or in files of their own, and paths are relative to the
directory of the document.
-/
namespace Underwriting

structure RuleSpec where
  id : String
  name : String
  priority : Int32
  enabled : Bool
  /-- The file of the rule, as the configuration writes it. -/
  logicFile : Option String
  logic : Logic

structure Config where
  path : String
  providerName : Option String
  workers : Nat
  systemPrompt : String
  rules : List RuleSpec

def Config.defaultSystemPrompt : String :=
  "You are an insurance rules analyst. Turn the user's plain-English rule " ++
  "into a RuleDraft JSON object with fields name, ruleType, ruleCategory, " ++
  "targetId, status, proprietary, priority, reference, sourceText, " ++
  "conditionText, outcomeText and logic. If the rule is ambiguous, ask one " ++
  "clarifying question instead of answering with JSON."

/-! ## Errors -/

structure MissingFile where
  path : String
  deriving DecidableEq, Repr

def MissingFile.message (e : MissingFile) : String :=
  Text.untilNul ("Failed to open file '" ++ e.path ++ "'")

inductive Logic.LoadError where
  | missing (e : MissingFile)
  | unreadable (path : String) (e : Yaml.Error)
  | yaml (e : Yaml.Error)
  | text (e : Logic.ReadError)
  | decode (e : DecodeError)
  deriving DecidableEq, Repr

def Logic.LoadError.message : Logic.LoadError → String
  | .missing e => e.message
  | .unreadable path e =>
    Text.untilNul ("Failed to load rule logic file '" ++ path ++ "': " ++ e.message)
  | .yaml e => e.message
  | .text e => e.message
  | .decode e => e.message

inductive RuleSpec.Error where
  /-- An exception of the YAML library that is not caught. -/
  | uncaught (e : Yaml.Error)
  | notAMap
  | missingId
  | notOneSource
  | yaml (e : Yaml.Error)
  | emptyId
  | priorityOutOfRange
  | logic (id : String) (e : Logic.LoadError)
  deriving DecidableEq, Repr

def RuleSpec.message (index : Nat) (detail : String) : String :=
  Text.untilNul ("[CONFIG] rules[" ++ toString index ++ "]" ++ detail)

def RuleSpec.Error.message (index : Nat) : RuleSpec.Error → String
  | .uncaught e => e.message
  | .notAMap => RuleSpec.message index ": entry must be a map"
  | .missingId => RuleSpec.message index ": missing required field 'id'"
  | .notOneSource =>
    RuleSpec.message index ": exactly one of 'logic_file' or 'logic' is required"
  | .yaml e => RuleSpec.message index (": " ++ e.message)
  | .emptyId => RuleSpec.message index ": 'id' must not be empty"
  | .priorityOutOfRange => RuleSpec.message index ": priority must be in range [0, 100]"
  | .logic id e => RuleSpec.message index (" '" ++ id ++ "': " ++ e.message)

inductive Config.Section where
  | provider | evaluation | builder
  deriving DecidableEq, Repr

def Config.Section.name : Config.Section → String
  | .provider => "provider"
  | .evaluation => "evaluation"
  | .builder => "builder"

def minWorkers : Nat := 1

inductive Config.Error where
  | unreadable (path : String) (e : Yaml.Error)
  | notAMap (s : Config.Section)
  /-- An exception of the YAML library that is not caught. -/
  | yaml (e : Yaml.Error)
  | workersNotAnInteger
  | workersOutOfRange
  | twoPrompts
  | promptFile (e : MissingFile)
  | missingRules
  | rulesNotASequence
  | rule (index : Nat) (e : RuleSpec.Error)
  | duplicateRule (id : String)
  deriving DecidableEq, Repr

def Config.Error.message : Config.Error → String
  | .unreadable path e =>
    Text.untilNul ("Failed to load config file '" ++ path ++ "': " ++ e.message)
  | .notAMap s => "[CONFIG] '" ++ s.name ++ "' section must be a map"
  | .yaml e => e.message
  | .workersNotAnInteger => "[CONFIG] evaluation.workers must be an integer"
  | .workersOutOfRange =>
    "[CONFIG] evaluation.workers must be in range [" ++ toString minWorkers ++ ", " ++
      toString maxWorkers ++ "]"
  | .twoPrompts =>
    "[CONFIG] builder: set only one of 'system_prompt' and 'system_prompt_file'"
  | .promptFile e => "[CONFIG] builder.system_prompt_file: " ++ e.message
  | .missingRules => "[CONFIG] Missing required 'rules' section"
  | .rulesNotASequence => "[CONFIG] 'rules' must be a sequence"
  | .rule index e => e.message index
  | .duplicateRule id => Text.untilNul ("[CONFIG] Duplicate rule ID: " ++ id)

/-! ## Logic -/

def Logic.ofNode (yaml : Yaml.Library) (n : Yaml.Node) : Except Logic.LoadError Logic :=
  match n.toValue yaml with
  | .error e => .error (.yaml e)
  | .ok v => (Logic.ofValue v).mapError .decode

/-- Loads the logic of a rule from a file of its own, which is JSON if its extension says
so and YAML otherwise. -/
def Logic.load (yaml : Yaml.Library) (json : Json.Library) (files : Files) (path : String) :
    Except Logic.LoadError Logic :=
  if FilePath.extension path = ".json" then
    match files.text? path with
    | none => .error (.missing ⟨path⟩)
    | some text => (Logic.ofJson json text).mapError .text
  else
    match files.document path with
    | .error e => .error (.unreadable path e)
    | .ok root => Logic.ofNode yaml root

/-! ## Sections -/

namespace Config

/-- The node under a key. What the library throws is not caught. -/
def find (yaml : Yaml.Library) (key : String) (n : Yaml.Node) :
    Except Error (Option Yaml.Node) :=
  (yaml.lookup key n).mapError .yaml

/-- A section that may be missing but must be a map. -/
def Section.find (yaml : Yaml.Library) (s : Section) (root : Yaml.Node) :
    Except Error (Option Yaml.Node) := do
  match ← Config.find yaml s.name root with
  | none => return none
  | some n => if n.isMap then return some n else throw (.notAMap s)

/-- The text of a node. What the library throws is not caught. -/
def text (yaml : Yaml.Library) (n : Yaml.Node) : Except Error String :=
  (yaml.string n).mapError .yaml

def readProviderName (yaml : Yaml.Library) (root : Yaml.Node) : Except Error (Option String) := do
  match ← Section.provider.find yaml root with
  | none => return none
  | some n =>
    match ← find yaml "name" n with
    | none => return none
    | some m => return some (← text yaml m)

def readWorkers (yaml : Yaml.Library) (root : Yaml.Node) : Except Error Nat := do
  match ← Section.evaluation.find yaml root with
  | none => return minWorkers
  | some n =>
    match ← find yaml "workers" n with
    | none => return minWorkers
    | some m =>
      match yaml.integer m with
      | .error _ => throw .workersNotAnInteger
      | .ok w =>
        if minWorkers ≤ w.toInt ∧ w.toInt ≤ maxWorkers then return w.toInt.toNat
        else throw .workersOutOfRange

def readSystemPrompt (yaml : Yaml.Library) (files : Files) (directory : String)
    (root : Yaml.Node) : Except Error String := do
  match ← Section.builder.find yaml root with
  | none => return defaultSystemPrompt
  | some n =>
    match ← find yaml "system_prompt" n with
    | some m =>
      if (← find yaml "system_prompt_file" n).isSome then throw .twoPrompts
      text yaml m
    | none =>
      match ← find yaml "system_prompt_file" n with
      | none => return defaultSystemPrompt
      | some m =>
        let path := FilePath.join directory (← text yaml m)
        match files.text? path with
        | none => throw (.promptFile ⟨path⟩)
        | some prompt => return prompt

end Config

namespace RuleSpec

def maxPriority : Nat := 100

def optional {α : Type} (yaml : Yaml.Library) (convert : Yaml.Node → Except Yaml.Error α)
    (default : α) (key : String) (n : Yaml.Node) : Except Yaml.Error α := do
  match ← yaml.lookup key n with
  | none => return default
  | some m => convert m

def readHeader (yaml : Yaml.Library) (n : Yaml.Node) :
    Except Yaml.Error (String × String × Int32 × Bool) := do
  let id ← optional yaml yaml.string "" "id" n
  let name ← optional yaml yaml.string "" "name" n
  let priority ← optional yaml yaml.integer 0 "priority" n
  let enabled ← optional yaml yaml.boolean true "enabled" n
  return (id, name, priority, enabled)

inductive Source where
  | file (n : Yaml.Node)
  | inline (n : Yaml.Node)

def findSource (yaml : Yaml.Library) (n : Yaml.Node) : Except Error Source := do
  let file ← (yaml.lookup "logic_file" n).mapError .uncaught
  let inline ← (yaml.lookup "logic" n).mapError .uncaught
  match file, inline with
  | some m, none => return .file m
  | none, some m => return .inline m
  | _, _ => throw .notOneSource

def Source.load (yaml : Yaml.Library) (json : Json.Library) (files : Files)
    (directory : String) : Source → Except Logic.LoadError (Option String × Logic)
  | .file n => do
    let file ← (yaml.string n).mapError .yaml
    let l ← Logic.load yaml json files (FilePath.join directory file)
    return (some file, l)
  | .inline n => do
    let l ← Logic.ofNode yaml n
    return (none, l)

def ofNode (yaml : Yaml.Library) (json : Json.Library) (files : Files) (directory : String)
    (n : Yaml.Node) : Except Error RuleSpec := do
  if !n.isMap then throw .notAMap
  if (← (yaml.lookup "id" n).mapError .uncaught).isNone then throw .missingId
  let source ← findSource yaml n
  let (id, name, priority, enabled) ← (readHeader yaml n).mapError .yaml
  if id = "" then throw .emptyId
  if priority.toInt < 0 ∨ maxPriority < priority.toInt then throw .priorityOutOfRange
  let (logicFile, logic) ← (source.load yaml json files directory).mapError (.logic id)
  return ⟨id, name, priority, enabled, logicFile, logic⟩

end RuleSpec

namespace Config

def readRules (yaml : Yaml.Library) (json : Json.Library) (files : Files) (directory : String) :
    List RuleSpec → Nat → List Yaml.Node → Except Error (List RuleSpec)
  | done, _, [] => .ok done
  | done, i, n :: rest =>
    match RuleSpec.ofNode yaml json files directory n with
    | .error e => .error (.rule i e)
    | .ok spec =>
      if done.any fun r => r.id = spec.id then .error (.duplicateRule spec.id)
      else readRules yaml json files directory (done ++ [spec]) (i + 1) rest

def ruleNodes (yaml : Yaml.Library) (root : Yaml.Node) : Except Error (List Yaml.Node) := do
  match ← find yaml "rules" root with
  | none => throw .missingRules
  | some (.sequence items) => return items
  | some _ => throw .rulesNotASequence

def load (yaml : Yaml.Library) (json : Json.Library) (files : Files) (path : String) :
    Except Error Config := do
  let root ← (files.document path).mapError (.unreadable path)
  let absolute := FilePath.join files.directory path
  let directory := FilePath.parent absolute
  let providerName ← readProviderName yaml root
  let workers ← readWorkers yaml root
  let systemPrompt ← readSystemPrompt yaml files directory root
  let nodes ← ruleNodes yaml root
  let rules ← readRules yaml json files directory [] 0 nodes
  return ⟨absolute, providerName, workers, systemPrompt, rules⟩

/-- A rule as it is evaluated. One without a name is called by its identifier. -/
def toRule (spec : RuleSpec) : Rule :=
  ⟨spec.id, if spec.name = "" then spec.id else spec.name, spec.priority, spec.enabled,
    spec.logic⟩

/-- The set of some rules. The first refusal ends it. -/
def addRules : RuleSet → List RuleSpec → Except DuplicateRule RuleSet
  | s, [] => .ok s
  | s, spec :: specs =>
    match s.add (toRule spec) with
    | (none, next) => addRules next specs
    | (some e, _) => .error e

def ruleSet (c : Config) : Except DuplicateRule RuleSet := addRules .empty c.rules

end Config
end Underwriting
