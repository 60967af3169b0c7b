import Underwriting.Json.Library
import Underwriting.Number.Decimal

/-! # Writing JSON text

Values are written compactly or with one member or item a line. Infinities, NaN and
unset values have no JSON form, so a value that holds one is not written at all.
-/
namespace Underwriting.Json

def Layout.newline : Layout → Nat → List Char
  | .compact, _ => []
  | .pretty, depth => '\n' :: List.replicate (2 * depth) ' '

def Layout.colon : Layout → List Char
  | .compact => [':']
  | .pretty => [':', ' ']

def hexDigit (n : Nat) : Char :=
  if n < 10 then Char.ofNat ('0'.toNat + n) else Char.ofNat ('a'.toNat + (n - 10))

/-- A character inside a string. Quotes, backslashes and control characters are
escaped. -/
def escaped (c : Char) : List Char :=
  if c = '"' then ['\\', '"']
  else if c = '\\' then ['\\', '\\']
  else if c < ' ' then
    ['\\', 'u', '0', '0', hexDigit (c.toNat / 16), hexDigit (c.toNat % 16)]
  else [c]

def quoted (s : String) : List Char := '"' :: (s.toList.flatMap escaped ++ ['"'])

def numberText? (x : Float) : Option (List Char) :=
  match Binary64.parts? x with
  | none => none
  | some p =>
    let digits := (Decimal.written p (Binary64.magnitude x)).text
    some (if p.negative then '-' :: digits else digits)

mutual
def text? (layout : Layout) (depth : Nat) : Value → Option (List Char)
  | .unset => none
  | .null => some "null".toList
  | .bool true => some "true".toList
  | .bool false => some "false".toList
  | .number x => numberText? x
  | .string s => some (quoted s)
  | .list [] => some ['[', ']']
  | .list (v :: vs) =>
    match text? layout (depth + 1) v, itemsText? layout (depth + 1) vs with
    | some first, some others =>
      some ('[' :: (layout.newline depth ++ first ++ others ++
        layout.newline (depth - 1) ++ [']']))
    | _, _ => none
  | .object [] => some ['\x7b', '\x7d']
  | .object ((key, v) :: ms) =>
    match text? layout (depth + 1) v, membersText? layout (depth + 1) ms with
    | some first, some others =>
      some ('\x7b' :: (layout.newline depth ++ quoted key ++ layout.colon ++ first ++ others ++
        layout.newline (depth - 1) ++ ['\x7d']))
    | _, _ => none

/-- Items after the first, each with the comma before it. -/
def itemsText? (layout : Layout) (depth : Nat) : List Value → Option (List Char)
  | [] => some []
  | v :: vs =>
    match text? layout depth v, itemsText? layout depth vs with
    | some first, some others => some (',' :: (layout.newline (depth - 1) ++ first ++ others))
    | _, _ => none

/-- Members after the first, each with the comma before it. -/
def membersText? (layout : Layout) (depth : Nat) : List (String × Value) → Option (List Char)
  | [] => some []
  | (key, v) :: ms =>
    match text? layout depth v, membersText? layout depth ms with
    | some first, some others =>
      some (',' :: (layout.newline (depth - 1) ++ quoted key ++ layout.colon ++ first ++ others))
    | _, _ => none
end

end Underwriting.Json
