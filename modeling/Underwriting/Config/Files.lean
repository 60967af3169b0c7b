import Underwriting.Yaml.Node

/-! # Files

Configuration is read from files that are named by paths. Paths are joined as texts and
never simplified, so that messages show them as they were written.
-/
namespace Underwriting

/-- What can be read. A path gives a text, if there is a file, and the tree of a YAML
document, unless the file is missing or is not YAML. -/
structure Files where
  /-- The directory in which relative paths start. -/
  directory : String
  text? : String → Option String
  document : String → Except Yaml.Error Yaml.Node

namespace FilePath

def isAbsolute (path : String) : Bool := path.toList.head? == some '/'

/-- A path in a directory. An absolute path stands for itself. -/
def join (directory path : String) : String :=
  if isAbsolute path then path
  else if directory.toList.isEmpty || directory.toList.getLast? == some '/' then
    directory ++ path
  else directory ++ "/" ++ path

def parent (path : String) : String :=
  let lead := (path.toList.reverse.dropWhile (· != '/')).dropWhile (· == '/')
  if lead.isEmpty && isAbsolute path then "/" else String.ofList lead.reverse

def fileName (path : String) : List Char := (path.toList.reverse.takeWhile (· != '/')).reverse

/-- The last dot of a file name and what follows it. A dot at the start does not count. -/
def extension (path : String) : String :=
  let name := fileName path
  let ending := (name.reverse.takeWhile (· != '.')).reverse
  if name = ['.', '.'] ∨ name.length ≤ ending.length + 1 then ""
  else String.ofList ('.' :: ending)

end FilePath

end Underwriting
