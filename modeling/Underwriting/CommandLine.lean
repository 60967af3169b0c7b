import Underwriting.Config.Load
import Underwriting.Text

/-! # The command line

The provider as a function of its arguments, its files and its input: what it logs, what
it writes and the exit code that it ends with.
-/
namespace Underwriting.CommandLine

structure Options where
  config : Option String
  workers : Option Int32
  checkOnly : Bool
  deriving DecidableEq, Repr

def Options.default : Options := ⟨none, none, false⟩

inductive UsageError where
  | badWorkers
  | unknownArgument (arg : String)
  | noConfig
  deriving DecidableEq, Repr

def usage : String :=
  "Usage: rulekit-provider --config <path/to/config.yaml> [--workers <n>] [--check]"

def UsageError.lines : UsageError → List String
  | .badWorkers => ["invalid --workers value"]
  | .unknownArgument arg => ["unknown argument: " ++ arg, usage]
  | .noConfig => ["FATAL: --config argument is required", usage]

/-- The integer at the front of a text, behind space and a sign. What follows it does not
count. -/
def leadingInteger? (text : String) : Option Int32 :=
  Text.readSigned?
    (fun negative cs =>
      (Integer.readDigits? (cs.takeWhile Char.isDigit)).bind fun n =>
        Integer.toInt32? (Integer.ofSize negative n))
    (text.toList.dropWhile Text.isSpace)

/-- Reads the arguments. Of repeated ones the last counts; an option that lacks its value
is unknown. -/
def parseOptions (options : Options) : List String → Except UsageError Options
  | [] => .ok options
  | "--config" :: path :: rest => parseOptions { options with config := some path } rest
  | "--workers" :: text :: rest =>
    match leadingInteger? text with
    | none => .error .badWorkers
    | some n => parseOptions { options with workers := some n } rest
  | arg :: rest =>
    if arg = "--check" then parseOptions { options with checkOnly := true } rest
    else .error (.unknownArgument arg)

inductive StartError where
  | config (e : Config.Error)
  | rules (e : DuplicateRule)
  | workersOutOfRange
  deriving DecidableEq, Repr

def StartError.message : StartError → String
  | .config e => e.message
  | .rules e => e.message
  | .workersOutOfRange => "--workers out of range"

/-- The number of workers: what the command line asks for, if it is within limits, or what
the configuration sets. -/
def chooseWorkers (configured : Nat) : Option Int32 → Except StartError Nat
  | none => .ok configured
  | some n =>
    if minWorkers ≤ n.toInt ∧ n.toInt ≤ maxWorkers then .ok n.toInt.toNat
    else .error .workersOutOfRange

def start (yaml : Yaml.Library) (json : Json.Library) (files : Files) (path : String)
    (workers : Option Int32) : Except StartError Provider := do
  let config ← (Config.load yaml json files path).mapError .config
  let rules ← config.ruleSet.mapError .rules
  let workers ← chooseWorkers config.workers workers
  return ⟨config.providerName.getD Provider.defaultName, workers, config.systemPrompt, rules⟩

/-- How requests and responses are written as bytes. Neither need succeed. -/
structure Codec where
  decode : Frame.Bytes → Option Request
  encode : Response → Option Frame.Bytes

/-- The codec of a provider that is started only to check its configuration: no payload
is a request. -/
def Codec.checkOnly : Codec := ⟨fun _ => none, fun _ => none⟩

structure Libraries where
  yaml : Yaml.Library
  json : Json.Library
  codec : Codec

structure Run where
  exitCode : UInt32
  log : List String
  output : Frame.Bytes
  deriving DecidableEq, Repr

def serve (libs : Libraries) (p : Provider) (stream : Frame.Bytes) (out : Frame.Output) : Run :=
  match _ : Frame.read Frame.maxPayload stream with
  | (.finished, _) => ⟨0, ["EOF on stdin; exiting cleanly"], out.written⟩
  | (.failed e, _) => ⟨2, ["read_frame error: " ++ e.message], out.written⟩
  | (.frame payload, rest) =>
    match libs.codec.decode payload with
    | none => ⟨3, ["failed to parse Request protobuf"], out.written⟩
    | some request =>
      match libs.codec.encode (p.dispatch libs.json request) with
      | none => ⟨4, ["failed to serialize Response protobuf"], out.written⟩
      | some bytes =>
        match Frame.write Frame.maxPayload out bytes with
        | (some e, out) => ⟨5, ["write_frame error: " ++ e.message], out.written⟩
        | (none, out) => serve libs p rest out
termination_by stream.length
decreasing_by
  apply Frame.length_lt_of_read
  assumption

def loadedLine (p : Provider) : String :=
  "loaded " ++ toString p.rules.size ++ " rules (" ++ toString p.rules.ordered.length ++
    " enabled), workers=" ++ toString p.workers

def checkLines (p : Provider) : List String :=
  p.rules.ordered.map fun r =>
    "  rule '" ++ r.id ++ "' priority=" ++ toString r.priority.toInt

def Run.logged (lines : List String) (r : Run) : Run := { r with log := lines ++ r.log }

def runWith (libs : Libraries) (files : Files) (input : Frame.Bytes) (path : String)
    (options : Options) : Run :=
  let run : Run :=
    match start libs.yaml libs.json files path options.workers with
    | .error e => ⟨1, ["FATAL: Failed to load rules: " ++ e.message], []⟩
    | .ok p =>
      let rest : Run :=
        if options.checkOnly then ⟨0, checkLines p ++ ["configuration OK"], []⟩
        else
          (serve libs p input ⟨[], true⟩).logged ["starting (transport=stdio+uint32_le)"]
      rest.logged [loadedLine p]
  run.logged ["loading configuration from: " ++ path]

def logLead : String := "rulekit-provider: "

def run (libs : Libraries) (files : Files) (args : List String) (input : Frame.Bytes) : Run :=
  let r : Run :=
    match parseOptions .default args with
    | .error e => ⟨1, e.lines, []⟩
    | .ok options =>
      match options.config with
      | none => ⟨1, UsageError.noConfig.lines, []⟩
      | some path => runWith libs files input path options
  { r with log := r.log.map (logLead ++ ·) }

end Underwriting.CommandLine
