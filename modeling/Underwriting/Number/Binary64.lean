import Underwriting.Number.Integer

/-! # Binary64 numbers as exact numbers

A finite number is a signed natural number times a power of two. This module reads
those parts off the bit pattern and rounds an exact quotient to the nearest pattern,
so that reading and writing numbers never goes through inexact arithmetic.
-/
namespace Underwriting.Binary64
open scoped CorePower

/-- The finite number of this sign and magnitude `mantissa * 2 ^ exponent`. -/
structure Parts where
  negative : Bool
  mantissa : Nat
  exponent : Int
  deriving DecidableEq, Repr

/-- The pattern of positive infinity; every larger magnitude is a NaN. -/
def infinityPattern : Nat := 2047 * 2 ^ (52 : Nat)

def isNegative (x : Float) : Bool := x.toBits.toNat / 2 ^ (63 : Nat) == 1

def magnitude (x : Float) : Nat := x.toBits.toNat % 2 ^ (63 : Nat)

/-- The exact value of a finite number; infinities and NaN have none. -/
def parts? (x : Float) : Option Parts :=
  let field : Nat := magnitude x / 2 ^ (52 : Nat)
  let fraction : Nat := magnitude x % 2 ^ (52 : Nat)
  if field = 2047 then none
  else if field = 0 then some ⟨isNegative x, fraction, -1074⟩
  else some ⟨isNegative x, 2 ^ (52 : Nat) + fraction, (field : Int) - 1075⟩

def isFinite (x : Float) : Bool := (parts? x).isSome

/-- A quotient rounded to the nearest natural number, a tie to the even one. -/
def roundHalfEven (num den : Nat) : Nat :=
  let floor := num / den
  let rest := 2 * (num % den)
  if rest < den then floor
  else if rest > den then floor + 1
  else floor + floor % 2

def leadingExponent (num den : Nat) : Int :=
  let guess : Int := (num.log2 : Int) - den.log2
  let isBelow :=
    if 0 ≤ guess then decide (num < den * 2 ^ guess.toNat)
    else decide (num * 2 ^ (-guess).toNat < den)
  if isBelow then guess - 1 else guess

/-- The exponent of the last place kept when a positive quotient is rounded: 53
binary digits, but none below `2 ^ -1074`. -/
def lastPlace (num den : Nat) : Int := max (leadingExponent num den - 52) (-1074)

/-- The quotient `num / den / 2 ^ place`, as numerator and denominator. -/
def scaled (num den : Nat) (place : Int) : Nat × Nat :=
  if 0 ≤ place then (num, den * 2 ^ place.toNat) else (num * 2 ^ (-place).toNat, den)

/-- The magnitude nearest to a quotient. A result at or above `infinityPattern` says
that the quotient is too large; the carry of a rounded-up mantissa moves into the
exponent field by itself. -/
def nearestMagnitude (num den : Nat) : Nat :=
  if num = 0 then 0
  else
    let place := lastPlace num den
    let q := scaled num den place
    roundHalfEven q.1 q.2 + (place + 1074).toNat * 2 ^ (52 : Nat)

/-- A quotient below the normal range that has exactly 54 binary digits, without the
last of them, unless that one stands below this place; any other quotient as it is. -/
def dropLoneDigit (lowest : Int) (num den : Nat) : Nat × Nat :=
  let place := leadingExponent num den - 53
  let q := scaled num den place
  if lowest ≤ place ∧ place < -1075 ∧ q.1 % q.2 = 0 then
    scaled (q.1 / q.2 / 2 * 2) 1 (-place)
  else (num, den)

/-- The magnitude that the text of a quotient is read as: the nearest one, but below the
normal range a 54th binary digit is overlooked when no other digit follows it. How far
down it is looked for depends on the notation. -/
def readMagnitude (lowest : Int) (num den : Nat) : Nat :=
  let q := dropLoneDigit lowest num den
  nearestMagnitude q.1 q.2

def isExact (num den : Nat) : Bool :=
  num == 0 ||
    (let q := scaled num den (lastPlace num den)
     q.1 % q.2 == 0)

/-- The number with this sign and magnitude pattern; too large magnitudes become
infinity. -/
def ofMagnitude (negative : Bool) (pattern : Nat) : Float :=
  let sign : Nat := if negative then 2 ^ (63 : Nat) else 0
  Float.ofBits (UInt64.ofNat (min pattern infinityPattern + sign))

def ofRatio (negative : Bool) (num den : Nat) : Float :=
  ofMagnitude negative (nearestMagnitude num den)

def ofInt (n : Int) : Float := ofRatio (decide (n < 0)) n.natAbs 1

def toInt? (x : Float) : Option Int :=
  match parts? x with
  | none => none
  | some p =>
    let scale : Nat := 2 ^ p.exponent.natAbs
    let size :=
      if 0 ≤ p.exponent then some (p.mantissa * scale)
      else if p.mantissa % scale = 0 then some (p.mantissa / scale)
      else none
    size.map (Integer.ofSize p.negative)

def toInt32? (x : Float) : Option Int32 := (toInt? x).bind Integer.toInt32?

def ofInt32 (n : Int32) : Float := ofInt n.toInt

def infinity (negative : Bool) : Float := ofMagnitude negative infinityPattern

def nan : Float := Float.ofBits 0x7ff8000000000000

end Underwriting.Binary64
