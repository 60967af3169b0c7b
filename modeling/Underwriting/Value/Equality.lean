import Underwriting.Value.Basic

/-! # Equality of values

Two values are equal when their kinds and contents are. Numbers compare as numbers, so
the two zeros are equal and NaN differs from itself; the order of an object's members
does not count.
-/
namespace Underwriting.Value

mutual
def equals : Value → Value → Bool
  | unset, unset => true
  | null, null => true
  | bool a, bool b => a == b
  | number a, number b => a == b
  | string a, string b => a == b
  | list a, list b => itemsEqual a b
  | object a, object b => a.length == b.length && membersEqual a b
  | _, _ => false

def itemsEqual : List Value → List Value → Bool
  | [], [] => true
  | a :: as, b :: bs => equals a b && itemsEqual as bs
  | _, _ => false

/-- Whether each of these members has an equal one with its key among others. -/
def membersEqual : List (String × Value) → Members → Bool
  | [], _ => true
  | (key, a) :: rest, others =>
    (match others.get? key with
     | some b => equals a b
     | none => false) && membersEqual rest others
end

end Underwriting.Value
