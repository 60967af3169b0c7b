/-! # Nesting depth of JSON text

The depth is counted on the text itself, before it is read: every opening bracket
outside a string goes one level down, every closing one goes up.
-/
namespace Underwriting.Json

/-- Where a scan stands: inside which strings and escapes, how deep, and how deep it
has been. The depth falls below zero on stray closing brackets. -/
structure Scan where
  inString : Bool
  escaped : Bool
  depth : Int
  deepest : Int
  deriving DecidableEq, Repr

namespace Scan

def start : Scan := ⟨false, false, 0, 0⟩

def step (s : Scan) (c : Char) : Scan :=
  if s.inString then
    if s.escaped then { s with escaped := false }
    else if c = '\\' then { s with escaped := true }
    else if c = '"' then { s with inString := false }
    else s
  else if c = '"' then { s with inString := true }
  else if c = '\x7b' ∨ c = '[' then
    { s with depth := s.depth + 1, deepest := max s.deepest (s.depth + 1) }
  else if c = '\x7d' ∨ c = ']' then { s with depth := s.depth - 1 }
  else s

end Scan

def nestingDepth (text : List Char) : Int := (text.foldl Scan.step Scan.start).deepest

def maxNesting : Nat := 32

end Underwriting.Json
