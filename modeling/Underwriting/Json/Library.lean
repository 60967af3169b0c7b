import Underwriting.Json.Nesting
import Underwriting.Text
import Underwriting.Value.Basic

/-! # JSON texts and their values

Texts are read and written by a library. The nesting of a text is checked before the
library sees it, since libraries give up on deep texts in ways of their own.
-/
namespace Underwriting.Json

/-- How a value is laid out: without white space, or with one member or item a line. -/
inductive Layout where
  | compact
  | pretty
  deriving DecidableEq, Repr

/-- What a library makes of texts and values. What it refuses, it refuses in its own
words. -/
structure Library where
  read : String → Except String Value
  write : Layout → Value → Except String String

inductive Error where
  | nestedTooDeep
  | malformed (detail : String)
  deriving DecidableEq, Repr

def Error.message : Error → String
  | .nestedTooDeep => "Invalid JSON: nesting deeper than " ++ toString maxNesting ++ " levels"
  | .malformed detail => Text.untilNul ("Invalid JSON: " ++ detail)

structure PrintError where
  detail : String
  deriving DecidableEq, Repr

def PrintError.message (e : PrintError) : String :=
  Text.untilNul ("Failed to serialize value as JSON: " ++ e.detail)

namespace Library

/-- The value that a text denotes. Nesting is checked first, on the text as it is. -/
def parse (json : Library) (text : String) : Except Error Value :=
  if nestingDepth text.toList > maxNesting then .error .nestedTooDeep
  else (json.read text).mapError .malformed

def print (json : Library) (layout : Layout) (v : Value) : Except PrintError String :=
  (json.write layout v).mapError .mk

end Library
end Underwriting.Json
