import Underwriting.Number.Decimal
import Underwriting.Text
import Underwriting.Value.Basic

/-! # Reading JSON text

A reader for the grammar of RFC 8259: one value with blanks around it. Every function
reads from the front of the text and returns what is left. Numbers are rounded to the
nearest binary64 number, and one too large for any is refused.
-/
namespace Underwriting.Json

def isBlank (c : Char) : Bool := c == ' ' || c == '\t' || c == '\n' || c == '\r'

def skipBlanks (cs : List Char) : List Char := cs.dropWhile isBlank

/-- A piece of a string as it is written: a character, or a 16-bit unit given by its
four hexadecimal digits. -/
inductive Piece where
  | char (c : Char)
  | unit (code : Nat)
  deriving DecidableEq, Repr

def unit? (a b c d : Char) : Option Nat :=
  match Text.hexDigit? a, Text.hexDigit? b, Text.hexDigit? c, Text.hexDigit? d with
  | some a, some b, some c, some d => some (((a * 16 + b) * 16 + c) * 16 + d)
  | _, _, _, _ => none

def escape? (c : Char) : Option Char :=
  match c with
  | '"' => some '"'
  | '\\' => some '\\'
  | '/' => some '/'
  | 'b' => some '\x08'
  | 'f' => some '\x0c'
  | 'n' => some '\n'
  | 'r' => some '\r'
  | 't' => some '\t'
  | _ => none

def readPieces : List Char → Option (List Piece × List Char)
  | [] => none
  | '"' :: rest => some ([], rest)
  | '\\' :: 'u' :: a :: b :: c :: d :: rest =>
    match unit? a b c d, readPieces rest with
    | some n, some (ps, left) => some (.unit n :: ps, left)
    | _, _ => none
  | '\\' :: c :: rest =>
    match escape? c, readPieces rest with
    | some e, some (ps, left) => some (.char e :: ps, left)
    | _, _ => none
  | c :: rest =>
    if c = '\\' ∨ c < ' ' then none
    else
      match readPieces rest with
      | some (ps, left) => some (.char c :: ps, left)
      | none => none

def isHighSurrogate (n : Nat) : Bool := 0xd800 ≤ n && n < 0xdc00

def isLowSurrogate (n : Nat) : Bool := 0xdc00 ≤ n && n < 0xe000

/-- Characters of pieces. Two units that make up one character stand next to each
other; half of such a pair alone is an error. -/
def joinPieces : List Piece → Option (List Char)
  | [] => some []
  | .char c :: rest => (joinPieces rest).map (c :: ·)
  | .unit high :: .unit low :: rest =>
    if isHighSurrogate high && isLowSurrogate low then
      (joinPieces rest).map
        (Char.ofNat (0x10000 + (high - 0xd800) * 0x400 + (low - 0xdc00)) :: ·)
    else if isHighSurrogate high || isLowSurrogate high then none
    else (joinPieces (.unit low :: rest)).map (Char.ofNat high :: ·)
  | .unit n :: rest =>
    if isHighSurrogate n || isLowSurrogate n then none
    else (joinPieces rest).map (Char.ofNat n :: ·)

def readString (cs : List Char) : Option (String × List Char) :=
  match readPieces cs with
  | none => none
  | some (pieces, rest) =>
    match joinPieces pieces with
    | none => none
    | some text => some (String.ofList text, rest)

def isNumberChar (c : Char) : Bool :=
  c.isDigit || c == '-' || c == '+' || c == '.' || c == 'e' || c == 'E'

/-- Whether a mantissa has digits on both sides of its point, if it has one, and no
needless leading zero. -/
def isStrictMantissa (cs : List Char) : Bool :=
  let whole := cs.takeWhile (· != '.')
  !whole.isEmpty && (whole.head? != some '0' || whole.length == 1) &&
    cs.dropWhile (· != '.') != ['.']

def readUnsigned (negative : Bool) (body : List Char) : Option Value :=
  if isStrictMantissa (body.takeWhile fun c => !Decimal.isExponentMark c) then
    match Decimal.read? body with
    | none => none
    | some d => (d.toFinite? negative).map .number
  else none

def readNumber (cs : List Char) : Option (Value × List Char) :=
  let value? :=
    match cs.takeWhile isNumberChar with
    | '-' :: body => readUnsigned true body
    | body => readUnsigned false body
  value?.map fun v => (v, cs.dropWhile isNumberChar)

mutual
/-- One value at the front of a text. The first argument bounds the number of nested
readings. -/
def readValue : Nat → List Char → Option (Value × List Char)
  | 0, _ => none
  | fuel + 1, cs =>
    match cs with
    | '\x7b' :: rest =>
      match skipBlanks rest with
      | '\x7d' :: left => some (.object [], left)
      | more =>
        match readMembers fuel more with
        | some (members, left) => some (.object (Members.ofList members), left)
        | none => none
    | '[' :: rest =>
      match skipBlanks rest with
      | ']' :: left => some (.list [], left)
      | more =>
        match readItems fuel more with
        | some (items, left) => some (.list items, left)
        | none => none
    | '"' :: rest =>
      match readString rest with
      | some (s, left) => some (.string s, left)
      | none => none
    | 't' :: 'r' :: 'u' :: 'e' :: left => some (.bool true, left)
    | 'f' :: 'a' :: 'l' :: 's' :: 'e' :: left => some (.bool false, left)
    | 'n' :: 'u' :: 'l' :: 'l' :: left => some (.null, left)
    | _ => readNumber cs

def readItems : Nat → List Char → Option (List Value × List Char)
  | 0, _ => none
  | fuel + 1, cs =>
    match readValue fuel cs with
    | none => none
    | some (v, rest) =>
      match skipBlanks rest with
      | ']' :: left => some ([v], left)
      | ',' :: more =>
        match readItems fuel (skipBlanks more) with
        | some (vs, left) => some (v :: vs, left)
        | none => none
      | _ => none

def readMembers : Nat → List Char → Option (List (String × Value) × List Char)
  | 0, _ => none
  | fuel + 1, cs =>
    match cs with
    | '"' :: rest =>
      match readString rest with
      | none => none
      | some (key, rest) =>
        match skipBlanks rest with
        | ':' :: rest =>
          match readValue fuel (skipBlanks rest) with
          | none => none
          | some (v, rest) =>
            match skipBlanks rest with
            | '\x7d' :: left => some ([(key, v)], left)
            | ',' :: more =>
              match readMembers fuel (skipBlanks more) with
              | some (ms, left) => some ((key, v) :: ms, left)
              | none => none
            | _ => none
        | _ => none
    | _ => none
end

/-- Reads a whole text. Nested readings outnumber neither the brackets nor the commas
twice, so twice the length of the text bounds them. -/
def readDocument (cs : List Char) : Option Value :=
  match readValue (2 * cs.length + 2) (skipBlanks cs) with
  | some (v, rest) => if (skipBlanks rest).isEmpty then some v else none
  | none => none

end Underwriting.Json
