import Underwriting.Proofs.Draft.Replies
import Underwriting.Proofs.Draft.RoundTrip
import Underwriting.Proofs.Json.Strict
import Underwriting.Service.Dispatch

/-! # Drafts from request to request

A draft that one request finds in a reply is handed to later ones as a text. No later
request refuses that text, and each of them sees the draft that was found, unless the draft
nests too deep to be read again. No draft that stands in a reply as a JSON text does.
-/
namespace Underwriting.Provider
variable {json : Json.Library} {p : Provider} {content text : String} {request : UInt64}
  {report : ReplyReport} {d : Draft}

/-! ## Extraction -/

section Extraction
variable (p) (request)

end Extraction

/-- A reply that is a draft and nothing else. -/
def roofReply : String :=
  "\x7b\"name\":\"Roof\",\"logic\":\x7b\"if\":\x7b\"op\":\"OR\",\"conditions\":[" ++
    "\x7b\"field\":\"roof\",\"operator\":\"exists\"\x7d]\x7d," ++
    "\"then\":[\x7b\"type\":\"block\"\x7d]\x7d\x7d"

end Underwriting.Provider
