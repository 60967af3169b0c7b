import Underwriting.Number.Literal
import Underwriting.Pattern.Search
import Underwriting.Rule.Vocabulary
import Underwriting.Text
import Underwriting.Value.Equality

/-! # Comparing values

What each operator says of an actual and an expected value, either of which may be
absent. An operator that asks for certain kinds of operands does not hold of others, and
neither does its negative form.
-/
namespace Underwriting

namespace Comparison

/-- Absent equals absent only. -/
def sameValue : Option Value → Option Value → Bool
  | none, none => true
  | some a, some b => a.equals b
  | _, _ => false

/-- Whether an item equals the value. No item equals an absent one. -/
def hasItem (items : List Value) : Option Value → Bool
  | none => false
  | some v => items.any fun item => item.equals v

/-- Whether the value has a place in an expected list, if a list is expected. -/
def isMember? (actual expected : Option Value) : Option Bool :=
  match expected with
  | some (.list items) => some (hasItem items actual)
  | _ => none

/-- Whether the actual value holds the expected one, if it is a text or a list. -/
def holds? (actual expected : Option Value) : Option Bool :=
  match actual, expected with
  | some (.string text), some (.string part) => some (Text.occursIn part.toList text.toList)
  | some (.list items), _ => some (hasItem items expected)
  | _, _ => none

/-- Present values are those that have a kind and are not null. -/
def isPresent : Option Value → Bool
  | none => false
  | some .null => false
  | some .unset => false
  | some _ => true

def onNumbers (rel : Float → Float → Bool) (actual expected : Option Value) : Bool :=
  match actual, expected with
  | some (.number a), some (.number b) => rel a b
  | _, _ => false

def onTexts (rel : String → String → Bool) (actual expected : Option Value) : Bool :=
  match actual, expected with
  | some (.string a), some (.string b) => rel a b
  | _, _ => false

/-- The number that a bound states, directly or as a literal. -/
def bound? : Value → Option Float
  | .number x => some x
  | .string s => (Literal.ofText? s).bind Literal.toFloat?
  | _ => none

def isWithin (actual expected : Option Value) : Bool :=
  match actual, expected with
  | some (.number x), some (.list [low, high]) =>
    match bound? low, bound? high with
    | some l, some h => decide (l ≤ x) && decide (x ≤ h)
    | _, _ => false
  | _, _ => false

end Comparison

open Comparison in
def Operator.compare (operator : Operator) (actual expected : Option Value) : Bool :=
  match operator with
  | .equals => sameValue actual expected
  | .notEquals => !sameValue actual expected
  | .memberOf => (isMember? actual expected).getD false
  | .notMemberOf => ((isMember? actual expected).map (!·)).getD false
  | .greater => onNumbers (fun a b => decide (b < a)) actual expected
  | .greaterOrEqual => onNumbers (fun a b => decide (b ≤ a)) actual expected
  | .less => onNumbers (fun a b => decide (a < b)) actual expected
  | .lessOrEqual => onNumbers (fun a b => decide (a ≤ b)) actual expected
  | .contains => (holds? actual expected).getD false
  | .notContains => ((holds? actual expected).map (!·)).getD false
  | .present => isPresent actual
  | .absent => !isPresent actual
  | .between => isWithin actual expected
  | .startsWith => onTexts (fun text part => part.toList.isPrefixOf text.toList) actual expected
  | .endsWith => onTexts (fun text part => part.toList.isSuffixOf text.toList) actual expected
  | .matchesPattern => onTexts (fun text pattern => Pattern.search pattern text) actual expected

end Underwriting
