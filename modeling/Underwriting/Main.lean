import Underwriting.CommandLine
import Underwriting.Yaml.Json
import Underwriting.Yaml.Standard

/-! # The provider as a program

Reads the files that the configuration names and the input, runs the provider and writes
what it comes to. Configuration documents are read in the part of YAML that is JSON.
-/
namespace Underwriting

def readText (path : String) : IO (Option String) := do
  try
    return some (← IO.FS.readFile path)
  catch _ =>
    return none

partial def readInput (stream : IO.FS.Stream) (before : ByteArray) : IO ByteArray := do
  let bytes ← stream.read 65536
  if bytes.isEmpty then return before else readInput stream (before ++ bytes)

def readTexts (paths : List String) : IO (List (String × String)) := do
  let mut texts := []
  for path in paths do
    if let some text ← readText path then
      texts := texts ++ [(path, text)]
  return texts

def libraries : CommandLine.Libraries := ⟨Yaml.standard, Json.strict, .checkOnly⟩

def textUnder (key : String) (n : Yaml.Node) : Option String :=
  match libraries.yaml.lookup key n with
  | .ok (some m) => (libraries.yaml.string m).toOption
  | _ => none

/-- The files that a configuration refers to, as it writes them. -/
def references (root : Yaml.Node) : List String :=
  let prompt :=
    match libraries.yaml.lookup "builder" root with
    | .ok (some n) => (textUnder "system_prompt_file" n).toList
    | _ => []
  let rules :=
    match Config.ruleNodes libraries.yaml root with
    | .ok nodes => nodes.filterMap (textUnder "logic_file")
    | .error _ => []
  prompt ++ rules

def documentIn (texts : List (String × String)) (path : String) : Except Yaml.Error Yaml.Node :=
  match texts.lookup path with
  | none => .error ⟨"bad file: " ++ path⟩
  | some text =>
    match Yaml.Node.ofJson text with
    | none => .error ⟨"not a JSON document"⟩
    | some root => .ok root

def gather (directory path : String) : IO Files := do
  let config ← readTexts [path]
  let named :=
    match documentIn config path with
    | .ok root => references root
    | .error _ => []
  let place := FilePath.parent (FilePath.join directory path)
  let texts := config ++ (← readTexts (named.map (FilePath.join place)))
  return ⟨directory, fun p => texts.lookup p, documentIn texts⟩

def configPath (args : List String) : String :=
  match CommandLine.parseOptions .default args with
  | .ok options => options.config.getD ""
  | .error _ => ""

end Underwriting

open Underwriting in
def main (args : List String) : IO UInt32 := do
  let files ← gather (← IO.currentDir).toString (configPath args)
  let input ← readInput (← IO.getStdin) ByteArray.empty
  let result := CommandLine.run libraries files args input.toList
  for line in result.log do
    (← IO.getStderr).putStrLn line
  (← IO.getStdout).write ⟨result.output.toArray⟩
  return result.exitCode
