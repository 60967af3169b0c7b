import Underwriting.Json.Parser
import Underwriting.Json.Printer

/-! # A strict library

It reads the texts of RFC 8259 and nothing else; of equal keys the last one counts. The
program runs with this library.
-/
namespace Underwriting.Json

def strict : Library where
  read text :=
    match readDocument text.toList with
    | some v => .ok v
    | none => .error "not a JSON text"
  write layout v :=
    match text? layout 1 v with
    | some cs => .ok (String.ofList cs)
    | none => .error "no JSON form"

end Underwriting.Json
