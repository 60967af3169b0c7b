import Underwriting.Number.Decimal
import Underwriting.Yaml.Node

/-! # A library for YAML nodes

Lookups and conversions as YAML libraries have them: only maps have keys, a scalar has none
to look for, and conversions read the whole text of a scalar.
-/
namespace Underwriting.Yaml

namespace Scalar

def number (text : String) : List Char := Text.trimEnd Text.isSpace text.toList

/-- Digits of a base, all of them below it and at least one. -/
def digits? (base : Nat) (cs : List Char) : Option Nat :=
  if cs.isEmpty then none
  else
    cs.foldl
      (fun n? c =>
        match n?, Text.hexDigit? c with
        | some n, some d => if d < base then some (n * base + d) else none
        | _, _ => none)
      (some 0)

/-- An unsigned integer: hexadecimal after `0x`, octal after another leading zero. -/
def natural? : List Char → Option Nat
  | '0' :: 'x' :: cs => digits? 16 cs
  | '0' :: 'X' :: cs => digits? 16 cs
  | '0' :: cs => if cs.isEmpty then some 0 else digits? 8 cs
  | cs => digits? 10 cs

def integer? (text : String) : Option Int32 :=
  Text.readSigned?
    (fun negative cs =>
      (natural? cs).bind fun n => Integer.toInt32? (Integer.ofSize negative n))
    (number text)

def spellings (word : String) : List String :=
  let cs := word.toList
  [word, String.ofList (cs.map Char.toUpper),
   String.ofList (cs.take 1 |>.map Char.toUpper) ++ String.ofList (cs.drop 1)]

def yesWords : List String := ["y", "yes", "true", "on"].flatMap spellings

def noWords : List String := ["n", "no", "false", "off"].flatMap spellings

def boolean? (text : String) : Option Bool :=
  if yesWords.contains text then some true
  else if noWords.contains text then some false
  else none

def unsigned? (negative : Bool) (cs : List Char) : Option Float :=
  (Decimal.read? cs).bind fun d => d.toFinite? negative

/-- A decimal number, or the spellings of the infinities and NaN. -/
def number? (text : String) : Option Float :=
  match Text.readSigned? unsigned? (number text) with
  | some x => some x
  | none =>
    if [".inf", ".Inf", ".INF", "+.inf", "+.Inf", "+.INF"].contains text then
      some (Binary64.infinity false)
    else if ["-.inf", "-.Inf", "-.INF"].contains text then some (Binary64.infinity true)
    else if [".nan", ".NaN", ".NAN"].contains text then some Binary64.nan
    else none

end Scalar

def badConversion : Error := ⟨"bad conversion"⟩

def badSubscript (key : String) : Error := ⟨"operator[] call on a scalar (key: \"" ++ key ++ "\")"⟩

namespace Node

def isDefined : Node → Bool
  | undefined => false
  | _ => true

def isKey (key : String) : Node → Bool
  | scalar text _ => text == key
  | _ => false

def entry? (key : String) (entries : List (Node × Node)) : Option Node :=
  match entries.find? fun e => e.1.isKey key with
  | some e => if e.2.isDefined then some e.2 else none
  | none => none

def convert {α : Type} (read? : String → Option α) : Node → Except Error α
  | scalar text _ =>
    match read? text with
    | some a => .ok a
    | none => .error badConversion
  | _ => .error badConversion

end Node

def standard : Library where
  lookup key
    | .map entries => .ok (Node.entry? key entries)
    | .scalar _ _ => .error (badSubscript key)
    | _ => .ok none
  string
    | .scalar text _ => .ok text
    | .null => .ok "null"
    | _ => .error badConversion
  integer := Node.convert Scalar.integer?
  boolean := Node.convert Scalar.boolean?
  number? := Scalar.number?

end Underwriting.Yaml
