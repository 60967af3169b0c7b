import Underwriting.Draft.Basic
import Underwriting.Text

/-! # Replies of a rule builder

A reply may hold a draft as JSON in the midst of other text: from the first opening brace
to the last closing one, with a `logic` key in between. A reply without a draft that can
become a rule is taken for a question.
-/
namespace Underwriting

/-- What a reply, or the failure to get one, comes to. -/
structure Reply where
  success : Bool
  message : String
  error : Option String
  confidence : Option Int32
  needsMoreInfo : Bool
  draft : Option Draft

namespace Reply

def draftConfidence : Int32 := 85

def isBlank (c : Char) : Bool := c == ' ' || c == '\t' || c == '\r' || c == '\n'

def logicKey : List Char := "\"logic\"".toList

/-- The text before the first opening brace, and the text from there to the last closing
one. -/
def span? (content : List Char) : Option (List Char × List Char) :=
  let lead := content.takeWhile (· != '\x7b')
  let body := content.dropWhile (· != '\x7b')
  let document := Text.trimEnd (· != '\x7d') body
  if Text.occursIn logicKey document then some (lead, document) else none

def question (content : String) : Reply := ⟨true, content, none, none, true, none⟩

/-- What is said about a draft that comes without a word. -/
def defaultMessage (name : String) : String :=
  "I've created the rule \"" ++ name ++ "\". Please review and save it."

def withDraft (lead : List Char) (d : Draft) : Reply :=
  let words := Text.trim isBlank lead
  let message := if words.isEmpty then defaultMessage d.name else String.ofList words
  ⟨true, message, none, some draftConfidence, false, some d⟩

def ofContent (json : Json.Library) (content : String) : Reply :=
  match span? content.toList with
  | none => question content
  | some (lead, document) =>
    match Draft.ofJson json (String.ofList document) with
    | .error _ => question content
    | .ok d => if d.flaw?.isSome then question content else withDraft lead d

def ofFailure (error : String) : Reply :=
  ⟨false, "", some (if error = "" then "Unknown error" else error), none, false, none⟩

end Reply
end Underwriting
