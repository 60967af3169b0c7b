import Underwriting.Draft.Basic

/-! # Prompts for a rule builder

The messages that ask a rule builder for a draft, or for a better one.
-/
namespace Underwriting

structure ChatMessage where
  role : String
  content : String
  deriving DecidableEq, Repr

structure NamedRef where
  id : String
  name : String
  deriving DecidableEq, Repr

structure ProductContext where
  name : Option String
  lineOfBusiness : Option String
  coverages : List NamedRef
  forms : List NamedRef
  deriving DecidableEq, Repr

structure BuilderRequest where
  text : String
  productId : String
  targetId : Option String
  product : Option ProductContext
  history : List ChatMessage
  deriving DecidableEq, Repr

def NamedRef.text (r : NamedRef) : String := r.name ++ " (" ++ r.id ++ ")"

namespace Prompt

def system (text : String) : ChatMessage := ⟨"system", text⟩

def user (text : String) : ChatMessage := ⟨"user", text⟩

def refsLine (label : String) (refs : List NamedRef) : String :=
  if refs.isEmpty then ""
  else "\n- " ++ label ++ ": " ++ ", ".intercalate (refs.map NamedRef.text)

def productText (p : ProductContext) : String :=
  "\n\nProduct Context:\n- Product Name: " ++ p.name.getD "Unknown" ++
    "\n- Line of Business: " ++ p.lineOfBusiness.getD "Unknown" ++
    refsLine "Available Coverages" p.coverages ++ refsLine "Available Forms" p.forms

/-- The first user message of a conversation: the request with its product and target. -/
def openingText (r : BuilderRequest) : String :=
  let product := match r.product with
    | some p => productText p
    | none => ""
  let target := match r.targetId with
    | some id => "\n\nTarget ID: " ++ id
    | none => ""
  r.text ++ product ++ target

/-- Asks for a draft. Later turns of a conversation carry the bare text. -/
def build (systemPrompt : String) (r : BuilderRequest) : List ChatMessage :=
  let text := if r.history.isEmpty then openingText r else r.text
  system systemPrompt :: (r.history ++ [user text])

def refineLead : String :=
  "Refine this rule based on the following instructions:\n\nCurrent Rule:\n"

def refineTail (instructions : String) : String :=
  "\n\nRefinement Instructions:\n\"" ++ instructions ++
    "\"\n\nRespond with the updated rule as valid JSON matching the RuleDraft schema."

def refine (json : Json.Library) (systemPrompt : String) (d : Draft) (instructions : String) :
    Except Json.PrintError (List ChatMessage) :=
  match d.toJson json .pretty with
  | .error e => .error e
  | .ok text => .ok [system systemPrompt, user (refineLead ++ text ++ refineTail instructions)]

end Prompt
end Underwriting
