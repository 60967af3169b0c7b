/-! # 32-bit integers and their texts -/
namespace Underwriting

namespace CorePower

/-- Where this is open, powers are those of the core library, also when algebraic ones are
at hand. -/
scoped instance (priority := 20000) pow {α : Type} [NatPow α] : Pow α Nat := instPowNat

end CorePower

namespace Integer
open scoped CorePower

def toInt32? (n : Int) : Option Int32 :=
  if -2 ^ (31 : Nat) ≤ n ∧ n < 2 ^ (31 : Nat) then some (Int32.ofInt n) else none

def ofSize (negative : Bool) (size : Nat) : Int := if negative then -(size : Int) else size

/-- Digits read as a base-ten number, most significant first. -/
def ofDigits (cs : List Char) : Nat :=
  cs.foldl (fun n c => n * 10 + (c.toNat - '0'.toNat)) 0

def readDigits? (cs : List Char) : Option Nat :=
  if cs.isEmpty || !cs.all Char.isDigit then none else some (ofDigits cs)

end Integer
end Underwriting
