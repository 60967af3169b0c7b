import Underwriting.Number.Decimal
import Underwriting.Text

/-! # Numeric literals in text operands

The literals that a text bound of a range condition may hold: decimal and
hexadecimal numerals, infinities and NaN, signed or not. A literal counts only when
its value has a place among the binary64 numbers: too large ones are refused, and so
are those that lose digits below the normal range.
-/
namespace Underwriting

inductive Literal.Size where
  | infinite
  | notANumber
  | decimal (value : Decimal)
  /-- The number `digits * 2 ^ exponent`. -/
  | hexadecimal (digits : Nat) (exponent : Int)
  deriving DecidableEq

structure Literal where
  negative : Bool
  size : Literal.Size
  deriving DecidableEq

namespace Literal
open scoped CorePower

def isBlank (c : Char) : Bool := c == ' ' || c == '\t'

def ofHexDigits (cs : List Char) : Nat :=
  cs.foldl (fun n c => n * 16 + (Text.hexDigit? c).getD 0) 0

/-- A hexadecimal numeral after its `0x`: each digit after the point is worth four
binary places. -/
def readHexadecimal? (cs : List Char) : Option Size :=
  let mark (c : Char) : Bool := c == 'p'
  let mantissa := Decimal.splitPoint (cs.takeWhile fun c => !mark c)
  let digits := mantissa.1 ++ mantissa.2
  let exponent? : Option Int :=
    match cs.dropWhile fun c => !mark c with
    | [] => some 0
    | _ :: rest => Decimal.readExponent? rest
  match exponent? with
  | none => none
  | some e =>
    if digits.isEmpty || !digits.all fun c => (Text.hexDigit? c).isSome then none
    else some (.hexadecimal (ofHexDigits digits) (e - 4 * mantissa.2.length))

/-- The tag of a NaN literal: letters, digits and underscores in parentheses. -/
def isNanTag : List Char → Bool
  | [] => true
  | '(' :: rest =>
    rest.getLast? == some ')' && rest.dropLast.all fun c => c.isAlphanum || c == '_'
  | _ => false

/-- The size written by a whole text, in which the case of letters does not count. -/
def readSize? (cs : List Char) : Option Size :=
  let lower := cs.map Char.toLower
  if lower = "inf".toList ∨ lower = "infinity".toList then some .infinite
  else
    match lower with
    | '0' :: 'x' :: rest => readHexadecimal? rest
    | 'n' :: 'a' :: 'n' :: rest => if isNanTag rest then some .notANumber else none
    | _ => (Decimal.read? lower).map .decimal

def read? (cs : List Char) : Option Literal :=
  Text.readSigned? (fun negative rest => (readSize? rest).map fun s => ⟨negative, s⟩) cs

/-- The literal in a text operand. It ends where the text does or before the first NUL
character; space may stand before it, blanks and tabs after it. -/
def ofText? (text : String) : Option Literal :=
  read? (Text.trimEnd isBlank ((text.toList.takeWhile (· != '\x00')).dropWhile Text.isSpace))

/-- Whether a quotient stays below the normal range when it is rounded to 53 digits. -/
def isSubnormal (num den : Nat) : Bool :=
  decide (num * 2 ^ (1076 : Nat) < (2 ^ (54 : Nat) - 1) * den)

/-- The number that a quotient is read as, if it is in range. Its digits may be overlooked
down to this place. -/
def inRange? (negative : Bool) (lowest : Int) (num den : Nat) : Option Float :=
  if num = 0 then some (Binary64.ofMagnitude negative 0)
  else
    let magnitude := Binary64.readMagnitude lowest num den
    let q := Binary64.dropLoneDigit lowest num den
    if Binary64.infinityPattern ≤ magnitude then none
    else if isSubnormal num den && !Binary64.isExact q.1 q.2 then none
    else some (Binary64.ofMagnitude negative magnitude)

/-- Binary exponents past this one cannot be reached by a finite number. -/
def largestBinary : Nat := 1100

def toFloat? (l : Literal) : Option Float :=
  match l.size with
  | .infinite => some (Binary64.infinity l.negative)
  | .notANumber => some Binary64.nan
  | .decimal d =>
    match d.range with
    | .zero => some (Binary64.ofMagnitude l.negative 0)
    | .tiny => none
    | .huge => none
    | .ordinary num den => inRange? l.negative Decimal.lowestPlace num den
  | .hexadecimal digits exponent =>
    if digits = 0 then some (Binary64.ofMagnitude l.negative 0)
    else if exponent > largestBinary then none
    else if 0 ≤ exponent then inRange? l.negative exponent (digits * 2 ^ exponent.toNat) 1
    else
      let power := (-exponent).toNat
      if digits.log2 + 1 + largestBinary < power then none
      else inRange? l.negative exponent digits (2 ^ power)

end Literal
end Underwriting
