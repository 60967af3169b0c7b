/-! # Sets of bytes

Patterns work on bytes. A set is written as single bytes, ranges, named classes and
equivalence classes; classes know ASCII letters only, and ranges order bytes as signed
numbers, so the upper half comes before the lower.
-/
namespace Underwriting.Pattern

inductive ByteClass where
  | alnum | alpha | blank | cntrl | digit | graph | lower | print | punct | space
  | upper | xdigit
  /-- Letters, digits and the underscore. -/
  | word
  deriving DecidableEq, Repr

def isBetween (low high b : UInt8) : Bool := low ≤ b && b ≤ high

namespace ByteClass

def mem (b : UInt8) : ByteClass → Bool
  | lower => isBetween 97 122 b
  | upper => isBetween 65 90 b
  | alpha => isBetween 65 90 b || isBetween 97 122 b
  | digit => isBetween 48 57 b
  | alnum => isBetween 65 90 b || isBetween 97 122 b || isBetween 48 57 b
  | xdigit => isBetween 48 57 b || isBetween 65 70 b || isBetween 97 102 b
  | blank => b == 32 || b == 9
  | space => b == 32 || isBetween 9 13 b
  | cntrl => b < 32 || b == 127
  | print => isBetween 32 126 b
  | graph => isBetween 33 126 b
  | punct =>
    isBetween 33 47 b || isBetween 58 64 b || isBetween 91 96 b || isBetween 123 126 b
  | word => isBetween 65 90 b || isBetween 97 122 b || isBetween 48 57 b || b == 95

/-- The names of classes in brackets, where case does not count. -/
def named : List (String × ByteClass) :=
  [("d", digit), ("w", word), ("s", space), ("alnum", alnum), ("alpha", alpha),
   ("blank", blank), ("cntrl", cntrl), ("digit", digit), ("graph", graph), ("lower", lower),
   ("print", print), ("punct", punct), ("space", space), ("upper", upper),
   ("xdigit", xdigit)]

end ByteClass

def toLower (b : UInt8) : UInt8 := if isBetween 65 90 b then b + 32 else b

def asciiText? (bytes : List UInt8) : Option String :=
  if bytes.all (· < 128) then some (String.ofList (bytes.map fun b => Char.ofNat b.toNat))
  else none

def ByteClass.ofName? (name : List UInt8) : Option ByteClass :=
  (asciiText? (name.map toLower)).bind fun n => named.lookup n

def characterNames : List String :=
  ["NUL", "SOH", "STX", "ETX", "EOT", "ENQ", "ACK", "alert", "backspace", "tab", "newline",
   "vertical-tab", "form-feed", "carriage-return", "SO", "SI", "DLE", "DC1", "DC2", "DC3",
   "DC4", "NAK", "SYN", "ETB", "CAN", "EM", "SUB", "ESC", "IS4", "IS3", "IS2", "IS1",
   "space", "exclamation-mark", "quotation-mark", "number-sign", "dollar-sign",
   "percent-sign", "ampersand", "apostrophe", "left-parenthesis", "right-parenthesis",
   "asterisk", "plus-sign", "comma", "hyphen", "period", "slash", "zero", "one", "two",
   "three", "four", "five", "six", "seven", "eight", "nine", "colon", "semicolon",
   "less-than-sign", "equals-sign", "greater-than-sign", "question-mark", "commercial-at",
   "A", "B", "C", "D", "E", "F", "G", "H", "I", "J", "K", "L", "M", "N", "O", "P", "Q", "R",
   "S", "T", "U", "V", "W", "X", "Y", "Z", "left-square-bracket", "backslash",
   "right-square-bracket", "circumflex", "underscore", "grave-accent", "a", "b", "c", "d",
   "e", "f", "g", "h", "i", "j", "k", "l", "m", "n", "o", "p", "q", "r", "s", "t", "u", "v",
   "w", "x", "y", "z", "left-curly-bracket", "vertical-line", "right-curly-bracket", "tilde",
   "DEL"]

def character? (name : List UInt8) : Option UInt8 :=
  (asciiText? name).bind fun n =>
    (characterNames.idxOf? n).map fun i => UInt8.ofNat i

/-- The place of a byte in the order of ranges. -/
def rank (b : UInt8) : UInt8 := b + 128

inductive ByteSet.Item where
  | byte (b : UInt8)
  | range (low high : UInt8)
  | ofClass (c : ByteClass)
  | notOfClass (c : ByteClass)
  /-- Bytes that differ from this one by case at most. -/
  | equivalent (b : UInt8)
  deriving DecidableEq, Repr

structure ByteSet where
  negated : Bool
  items : List ByteSet.Item
  deriving DecidableEq, Repr

namespace ByteSet

def Item.mem (b : UInt8) : Item → Bool
  | byte c => b == c
  | range low high => rank low ≤ rank b && rank b ≤ rank high
  | ofClass c => c.mem b
  | notOfClass c => !c.mem b
  | equivalent c => toLower b == toLower c

def mem (b : UInt8) (s : ByteSet) : Bool := s.items.any (·.mem b) != s.negated

end ByteSet

/-- What a backslash and a letter stand for: a class, or its complement when the letter
is upper-case. -/
def shorthand? (letter : UInt8) : Option (Bool × ByteClass) :=
  match Char.ofNat letter.toNat with
  | 'd' => some (false, .digit)
  | 'D' => some (true, .digit)
  | 's' => some (false, .space)
  | 'S' => some (true, .space)
  | 'w' => some (false, .word)
  | 'W' => some (true, .word)
  | _ => none

end Underwriting.Pattern
