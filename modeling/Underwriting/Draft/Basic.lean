import Underwriting.Rule.Decode
import Underwriting.Rule.Encode

/-! # Drafts of rules

A draft is a rule as a rule builder proposes it, with the texts it was made from. Its
document form always has all its members; an absent target or reference is null there.
-/
namespace Underwriting

structure Draft where
  name : String
  ruleType : String
  ruleCategory : String
  targetId : Option String
  status : String
  proprietary : Bool
  priority : Int32
  reference : Option String
  sourceText : String
  conditionText : String
  outcomeText : String
  logic : Logic

inductive Draft.Flaw where
  | noName
  | noConditions
  | noActions
  deriving DecidableEq, Repr

def Draft.Flaw.message : Draft.Flaw → String
  | .noName => "Rule name is required"
  | .noConditions => "Rule must have at least one condition"
  | .noActions => "Rule must have at least one action"

inductive Draft.DecodeError where
  | draft (fault : Fault)
  | logic (e : Underwriting.DecodeError)
  deriving DecidableEq, Repr

def Draft.DecodeError.message : Draft.DecodeError → String
  | .draft fault => "[RULE DRAFT] draft: " ++ fault.message
  | .logic e => e.message

inductive Draft.ReadError where
  | json (e : Json.Error)
  | decode (e : Draft.DecodeError)
  deriving DecidableEq, Repr

def Draft.ReadError.message : Draft.ReadError → String
  | .json e => "[RULE DRAFT] " ++ e.message
  | .decode e => e.message

namespace Draft

def flaw? (d : Draft) : Option Flaw :=
  if d.name = "" then some .noName
  else if d.logic.condition.entries.isEmpty then some .noConditions
  else if d.logic.thenActions.isEmpty then some .noActions
  else none

def nullable : Option String → Value
  | some s => .string s
  | none => .null

def members (d : Draft) : Members :=
  [("name", .string d.name), ("ruleType", .string d.ruleType),
   ("ruleCategory", .string d.ruleCategory), ("targetId", nullable d.targetId),
   ("status", .string d.status), ("proprietary", .bool d.proprietary),
   ("priority", .number (Binary64.ofInt32 d.priority)), ("reference", nullable d.reference),
   ("sourceText", .string d.sourceText), ("conditionText", .string d.conditionText),
   ("outcomeText", .string d.outcomeText), ("logic", d.logic.toValue)]

def toValue (d : Draft) : Value := .object d.members

/-- The members of a draft apart from its logic, and the value of that. -/
def ofMembers (ms : Members) : Except Fault ((Logic → Draft) × Value) := do
  let name ← ms.optionalString "name"
  let ruleType ← ms.optionalString "ruleType"
  let ruleCategory ← ms.optionalString "ruleCategory"
  let targetId ← ms.optionalString "targetId"
  let status ← ms.optionalString "status"
  let reference ← ms.optionalString "reference"
  let sourceText ← ms.optionalString "sourceText"
  let conditionText ← ms.optionalString "conditionText"
  let outcomeText ← ms.optionalString "outcomeText"
  let proprietary ← ms.boolean "proprietary" false
  let priority ← ms.integer "priority" 0
  let logic ← ms.required "logic"
  return (fun l =>
    ⟨name.getD "", ruleType.getD "", ruleCategory.getD "", targetId, status.getD "",
      proprietary, priority, reference, sourceText.getD "", conditionText.getD "",
      outcomeText.getD "", l⟩, logic)

def ofValue (v : Value) : Except DecodeError Draft :=
  match Members.expect v >>= ofMembers with
  | .error fault => .error (.draft fault)
  | .ok (withLogic, logic) =>
    match Logic.ofValue logic with
    | .error e => .error (.logic e)
    | .ok l => .ok (withLogic l)

def ofJson (json : Json.Library) (text : String) : Except ReadError Draft :=
  match json.parse text with
  | .error e => .error (.json e)
  | .ok v => (ofValue v).mapError .decode

def toJson (json : Json.Library) (layout : Json.Layout) (d : Draft) :
    Except Json.PrintError String :=
  json.print layout d.toValue

end Draft
end Underwriting
