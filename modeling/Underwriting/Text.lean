/-! # Texts as lists of characters -/
namespace Underwriting.Text

/-- Blanks, tabs, line feeds, vertical tabs, form feeds and carriage returns. -/
def isSpace (c : Char) : Bool := c == ' ' || ('\t' ≤ c && c ≤ '\r')

def hexDigit? (c : Char) : Option Nat :=
  if '0' ≤ c ∧ c ≤ '9' then some (c.toNat - '0'.toNat)
  else if 'a' ≤ c ∧ c ≤ 'f' then some (c.toNat - 'a'.toNat + 10)
  else if 'A' ≤ c ∧ c ≤ 'F' then some (c.toNat - 'A'.toNat + 10)
  else none

def readSigned? {α : Type} (read? : Bool → List Char → Option α) : List Char → Option α
  | '-' :: cs => read? true cs
  | '+' :: cs => read? false cs
  | cs => read? false cs

def occursIn (part : List Char) : List Char → Bool
  | [] => part.isEmpty
  | c :: rest => part.isPrefixOf (c :: rest) || occursIn part rest

def trimEnd (isBlank : Char → Bool) (cs : List Char) : List Char :=
  (cs.reverse.dropWhile isBlank).reverse

def trim (isBlank : Char → Bool) (cs : List Char) : List Char :=
  trimEnd isBlank (cs.dropWhile isBlank)

/-- A text up to its first NUL character. Error messages and file names end there. -/
def untilNul (s : String) : String := String.ofList (s.toList.takeWhile (· != '\x00'))

end Underwriting.Text
