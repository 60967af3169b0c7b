import Underwriting.Number.Binary64
import Underwriting.Text

/-! # Decimal numerals

Unsigned numerals `digits [. digits] [e exponent]`, the binary64 number that one is
read as, and the numeral written for a number. A number is written with the fewest
digits that read back, found by trying; when no short numeral reads back, all its
digits are written.
-/
namespace Underwriting

/-- The number `digits * 10 ^ exponent`. -/
structure Decimal where
  digits : Nat
  exponent : Int
  deriving DecidableEq, Repr

namespace Decimal
open scoped CorePower

def readExponent? (cs : List Char) : Option Int :=
  Text.readSigned? (fun negative ds => (Integer.readDigits? ds).map (Integer.ofSize negative)) cs

def splitPoint (cs : List Char) : List Char × List Char :=
  (cs.takeWhile (· != '.'), (cs.dropWhile (· != '.')).drop 1)

def isExponentMark (c : Char) : Bool := c == 'e' || c == 'E'

/-- Reads a whole text as a numeral. There must be a digit before or after the point,
and a digit after an exponent mark. -/
def read? (cs : List Char) : Option Decimal :=
  let mantissa := splitPoint (cs.takeWhile fun c => !isExponentMark c)
  let digits := mantissa.1 ++ mantissa.2
  let exponent? : Option Int :=
    match cs.dropWhile fun c => !isExponentMark c with
    | [] => some 0
    | _ :: rest => readExponent? rest
  match exponent?, Integer.readDigits? digits with
  | some e, some n => some ⟨n, e - mantissa.2.length⟩
  | _, _ => none

/-- Powers of ten past this one cannot be reached by a finite number. -/
def largestPower : Nat := 310

/-- A power of ten below which everything rounds to zero. -/
def smallestPower : Nat := 330

def digitBound (n : Nat) : Nat := n.log2 / 3 + 1

/-- Whether a numeral is so far from one that its powers of ten need not be built. -/
inductive Range where
  | zero
  | tiny
  | huge
  | ordinary (num den : Nat)

def range (d : Decimal) : Range :=
  if d.digits = 0 then .zero
  else if d.exponent > largestPower then .huge
  else if 0 ≤ d.exponent then .ordinary (d.digits * 10 ^ d.exponent.toNat) 1
  else
    let power := (-d.exponent).toNat
    if digitBound d.digits + smallestPower < power then .tiny
    else .ordinary d.digits (10 ^ power)

/-- The lowest binary place at which a digit of a numeral may be overlooked. -/
def lowestPlace : Int := -1076

/-- The magnitude that a numeral is read as; at or above `Binary64.infinityPattern` when
the numeral is too large. -/
def readMagnitude (d : Decimal) : Nat :=
  match d.range with
  | .zero => 0
  | .tiny => 0
  | .huge => Binary64.infinityPattern
  | .ordinary num den => Binary64.readMagnitude lowestPlace num den

def toFloat (negative : Bool) (d : Decimal) : Float :=
  Binary64.ofMagnitude negative d.readMagnitude

/-- The same with numerals too large for any number refused. -/
def toFinite? (negative : Bool) (d : Decimal) : Option Float :=
  if d.readMagnitude < Binary64.infinityPattern then some (d.toFloat negative) else none

def ofParts (p : Binary64.Parts) : Decimal :=
  if 0 ≤ p.exponent then ⟨p.mantissa * 2 ^ p.exponent.toNat, 0⟩
  else ⟨p.mantissa * 5 ^ (-p.exponent).toNat, p.exponent⟩

/-- The numeral with its last `count` digits rounded away. -/
def dropDigits (d : Decimal) (count : Nat) : Decimal :=
  ⟨Binary64.roundHalfEven d.digits (10 ^ count), d.exponent + count⟩

def shortest? (p : Binary64.Parts) (pattern : Nat) : Option Decimal :=
  let all := ofParts p
  let count := (Nat.toDigits 10 all.digits).length
  ((List.range 17).map fun n => all.dropDigits (count - (n + 1))).find?
    fun d => d.readMagnitude == pattern

def padded (width : Nat) (ds : List Char) : List Char :=
  List.replicate (width - ds.length) '0' ++ ds

/-- Numerals with more than this many digits after the point are written with an
exponent. -/
def longestFraction : Nat := 20

def text (d : Decimal) : List Char :=
  if d.exponent = 0 then Nat.toDigits 10 d.digits
  else if 0 < d.exponent then
    Nat.toDigits 10 d.digits ++ 'e' :: Nat.toDigits 10 d.exponent.toNat
  else
    let places := (-d.exponent).toNat
    if places ≤ longestFraction then
      let ds := padded (places + 1) (Nat.toDigits 10 d.digits)
      ds.take (ds.length - places) ++ '.' :: ds.drop (ds.length - places)
    else
      Nat.toDigits 10 d.digits ++ 'e' :: '-' :: Nat.toDigits 10 places

/-- Numbers up to this size are written without an exponent when they are integers. -/
def largestPlain : Nat := 2 ^ (64 : Nat)

def written (p : Binary64.Parts) (pattern : Nat) : Decimal :=
  let all := ofParts p
  if p.mantissa = 0 then ⟨0, 0⟩
  else if all.exponent = 0 ∧ all.digits ≤ largestPlain then all
  else
    match shortest? p pattern with
    | some d => d
    | none => all

end Decimal
end Underwriting
