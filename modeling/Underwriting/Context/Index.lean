import Underwriting.Context

/-! # Reading list indices

An index is read from digit to digit into a 32-bit number. A product or a sum that does not fit
into 32 bits would end the reading with an error, which is not the same as no index.
-/
namespace Underwriting

namespace Integer

structure Overflow where
  result : Int
  deriving DecidableEq, Repr

def checked (result : Int) : Except Overflow Int32 :=
  match toInt32? result with
  | none => .error ⟨result⟩
  | some n => .ok n

end Integer

namespace Path

/-- Digits read behind others that make up a number. There is none if one of the characters is
no digit. -/
def accumulate (n : Int32) : List Char → Except Integer.Overflow (Option Int32)
  | [] => .ok (some n)
  | c :: cs =>
    if c.isDigit then
      match Integer.checked (n.toInt * 10) with
      | .error e => .error e
      | .ok tens =>
        match Integer.checked (tens.toInt + (c.toNat - '0'.toNat : Nat)) with
        | .error e => .error e
        | .ok next => accumulate next cs
    else .ok none

/-- The index that a segment writes, if a list of this size has an element there. -/
def readIndex (segment : String) (size : Nat) : Except Integer.Overflow (Option Nat) :=
  let digits := segment.toList
  if digits.isEmpty || digits.length > maxIndexDigits then .ok none
  else if digits.head? = some '0' ∧ digits.length > 1 then .ok none
  else
    match accumulate 0 digits with
    | .error e => .error e
    | .ok none => .ok none
    | .ok (some n) => .ok (if (size : Int) ≤ n.toInt then none else some n.toInt.toNat)

end Path
end Underwriting
