import Underwriting.Number.Integer
import Underwriting.Pattern.Syntax

/-! # Tokens of patterns

A pattern is cut into tokens from left to right. A set in brackets is one token, and so
is a quantifier together with the question mark that makes it lazy. Anything that is no
token makes the whole pattern invalid.
-/
namespace Underwriting.Pattern
open scoped CorePower

inductive Opening where
  | capture
  | parentheses
  | lookahead (negated : Bool)
  deriving DecidableEq, Repr

inductive Token where
  | byte (b : UInt8)
  | dot
  | set (s : ByteSet)
  | backreference (group : Nat)
  | lineStart
  | lineEnd
  | wordBoundary (negated : Bool)
  | bar
  | opening (o : Opening)
  | closing
  | quantifier (q : Quantifier)
  deriving DecidableEq, Repr

def code (c : Char) : UInt8 := UInt8.ofNat c.toNat

def isDigit (b : UInt8) : Bool := isBetween 48 57 b

def ofDigits (bs : List UInt8) : Nat := bs.foldl (fun n b => n * 10 + (b.toNat - 48)) 0

def hexDigit? (b : UInt8) : Option Nat :=
  if isBetween 48 57 b then some (b.toNat - 48)
  else if isBetween 97 102 b then some (b.toNat - 87)
  else if isBetween 65 70 b then some (b.toNat - 55)
  else none

/-- The numbers of patterns are signed and have 32 bits: larger ones wrap around. -/
def wrap (n : Nat) : Int := Int.bmod n (2 ^ (32 : Nat))

def readNumber? (bs : List UInt8) : Option (Int × List UInt8) :=
  let digits := bs.takeWhile isDigit
  if digits.isEmpty then none else some (wrap (ofDigits digits), bs.dropWhile isDigit)

def readGroup? (bs : List UInt8) : Option (Nat × List UInt8) :=
  match readNumber? bs with
  | some (.ofNat group, rest) => some (group, rest)
  | _ => none

/-- A byte written by exactly this many hexadecimal digits; of larger numbers the low
byte counts. -/
def readHex? (digits : Nat) (bs : List UInt8) : Option (UInt8 × List UInt8) :=
  let shown := bs.take digits
  if shown.length = digits ∧ shown.all fun b => (hexDigit? b).isSome then
    some (UInt8.ofNat (shown.foldl (fun n b => n * 16 + (hexDigit? b).getD 0) 0),
      bs.drop digits)
  else none

inductive Escape where
  | byte (b : UInt8)
  | ofClass (negated : Bool) (c : ByteClass)
  | backreference (group : Nat)
  | wordBoundary (negated : Bool)
  deriving DecidableEq, Repr

def control? (letter : Char) : Option UInt8 :=
  match letter with
  | '0' => some 0
  | 'f' => some 12
  | 'n' => some 10
  | 'r' => some 13
  | 't' => some 9
  | 'v' => some 11
  | _ => none

/-- The escape after a backslash. A `b` is a backspace inside brackets only. -/
def readEscape? (inBrackets : Bool) : List UInt8 → Option (Escape × List UInt8)
  | [] => none
  | b :: rest =>
    let letter := Char.ofNat b.toNat
    match control? letter, shorthand? b with
    | some c, _ => some (.byte c, rest)
    | none, some (negated, c) => some (.ofClass negated c, rest)
    | none, none =>
      if letter = 'b' then some (if inBrackets then .byte 8 else .wordBoundary false, rest)
      else if letter = 'B' then some (.wordBoundary true, rest)
      else if letter = 'c' then
        match rest with
        | c :: left => some (.byte c, left)
        | [] => none
      else if letter = 'x' then (readHex? 2 rest).map fun r => (.byte r.1, r.2)
      else if letter = 'u' then (readHex? 4 rest).map fun r => (.byte r.1, r.2)
      else if isDigit b then (readGroup? (b :: rest)).map fun r => (.backreference r.1, r.2)
      else some (.byte b, rest)

/-! ## Sets in brackets -/

inductive SetToken where
  | byte (b : UInt8)
  | dash
  | named (b : UInt8)
  | equivalent (b : UInt8)
  | ofClass (c : ByteClass)
  | shorthand (negated : Bool) (c : ByteClass)
  deriving DecidableEq, Repr

def readName? (mark : UInt8) (bs : List UInt8) : Option (List UInt8 × List UInt8) :=
  match bs.dropWhile (· != mark) with
  | _ :: b :: rest => if b == code ']' then some (bs.takeWhile (· != mark), rest) else none
  | _ => none

def readNamed? (mark : UInt8) (bs : List UInt8) : Option (SetToken × List UInt8) :=
  match readName? mark bs with
  | none => none
  | some (name, rest) =>
    let token? : Option SetToken :=
      if mark == code '.' then (character? name).map .named
      else if mark == code '=' then (character? name).map .equivalent
      else (ByteClass.ofName? name).map .ofClass
    token?.map fun t => (t, rest)

def isNameMark (b : UInt8) : Bool := b == code '.' || b == code '=' || b == code ':'

/-- The tokens up to the closing bracket. The first argument bounds their number. -/
def readSetTokens? : Nat → List UInt8 → Option (List SetToken × List UInt8)
  | 0, _ => none
  | _, [] => none
  | fuel + 1, b :: rest =>
    let continueWith (found : Option (SetToken × List UInt8)) :
        Option (List SetToken × List UInt8) :=
      match found with
      | none => none
      | some (token, left) =>
        (readSetTokens? fuel left).map fun r => (token :: r.1, r.2)
    if b == code ']' then some ([], rest)
    else if b == code '-' then continueWith (some (.dash, rest))
    else if b == code '[' then
      match rest with
      | [] => none
      | mark :: left =>
        if isNameMark mark then continueWith (readNamed? mark left)
        else continueWith (some (.byte b, rest))
    else if b == code '\\' then
      match readEscape? true rest with
      | some (.byte c, left) => continueWith (some (.byte c, left))
      | some (.ofClass negated c, left) => continueWith (some (.shorthand negated c, left))
      | _ => none
    else continueWith (some (.byte b, rest))

/-- What was read last inside brackets: nothing that matters, a byte that may yet start
a range, or a class, which may not. -/
inductive Pending where
  | nothing
  | byte (b : UInt8)
  | aClass
  deriving DecidableEq, Repr

def Pending.items : Pending → List ByteSet.Item
  | .byte b => [.byte b]
  | _ => []

def readRange? (low high : UInt8) : Option ByteSet.Item :=
  if rank low ≤ rank high then some (.range low high) else none

/-- The items that tokens stand for. A dash between two bytes makes a range; at either
end of the brackets and after a range it stands for itself. -/
def readItems? : Pending → List SetToken → Option (List ByteSet.Item)
  | last, [] => some last.items
  | last, .dash :: .byte b :: rest =>
    match last with
    | .byte low =>
      match readRange? low b, readItems? .nothing rest with
      | some r, some items => some (r :: items)
      | _, _ => none
    | .nothing => readItems? (.byte (code '-')) (.byte b :: rest)
    | .aClass => none
  | last, .dash :: .dash :: rest =>
    match last with
    | .byte low =>
      match readRange? low (code '-'), readItems? .nothing rest with
      | some r, some items => some (r :: items)
      | _, _ => none
    | .nothing => readItems? (.byte (code '-')) (.dash :: rest)
    | .aClass => none
  | last, [.dash] => some (last.items ++ [.byte (code '-')])
  | last, .dash :: rest =>
    if last = .nothing then readItems? (.byte (code '-')) rest else none
  | last, .byte b :: rest => (readItems? (.byte b) rest).map (last.items ++ ·)
  | last, .named b :: rest => (readItems? (.byte b) rest).map (last.items ++ ·)
  | last, .equivalent b :: rest =>
    (readItems? .aClass rest).map fun items => last.items ++ .equivalent b :: items
  | last, .ofClass c :: rest =>
    (readItems? .aClass rest).map fun items => last.items ++ .ofClass c :: items
  | last, .shorthand negated c :: rest =>
    (readItems? .aClass rest).map fun items =>
      last.items ++ (if negated then .notOfClass c else .ofClass c) :: items

/-- A set after its opening bracket. A dash that comes first stands for itself. -/
def readSet? (bs : List UInt8) : Option (ByteSet × List UInt8) :=
  let (negated, body) :=
    match bs with
    | b :: rest => if b == code '^' then (true, rest) else (false, bs)
    | [] => (false, bs)
  match readSetTokens? (body.length + 1) body with
  | none => none
  | some (tokens, rest) =>
    let items? :=
      match tokens with
      | .dash :: others => readItems? (.byte (code '-')) others
      | _ => readItems? .nothing tokens
    items?.map fun items => (⟨negated, items⟩, rest)

/-! ## Quantifiers -/

/-- The repetition with these bounds, of which the upper one may be missing. Negative
bounds count, but fewer than no copies are never asked for. -/
def counted? (least : Int) (most : Option Int) : Option Count :=
  match most with
  | none => some (.atLeast least.toNat none)
  | some most =>
    if least ≤ most then some (.atLeast least.toNat (some (most - least).toNat)) else none

def readCount? (bs : List UInt8) : Option (Count × List UInt8) :=
  match readNumber? bs with
  | none => none
  | some (least, rest) =>
    match rest with
    | [] => none
    | b :: left =>
      if b == code '\x7d' then (counted? least (some least)).map fun n => (n, left)
      else if b == code ',' then
        match left with
        | [] => none
        | c :: after =>
          if c == code '\x7d' then (counted? least none).map fun n => (n, after)
          else
            match readNumber? left with
            | some (most, d :: final) =>
              if d == code '\x7d' then (counted? least (some most)).map fun n => (n, final)
              else none
            | _ => none
      else none

/-- A quantifier token: a question mark behind it makes it lazy. -/
def quantified (count : Count) (rest : List UInt8) : Token × List UInt8 :=
  match rest with
  | b :: left =>
    if b == code '?' then (.quantifier ⟨count, false⟩, left)
    else (.quantifier ⟨count, true⟩, rest)
  | [] => (.quantifier ⟨count, true⟩, rest)

/-! ## The whole pattern -/

def readOpening? (rest : List UInt8) : Option (Token × List UInt8) :=
  match rest with
  | [] => some (.opening .capture, [])
  | b :: left =>
    if b == code '?' then
      match left with
      | [] => none
      | c :: after =>
        if c == code ':' then some (.opening .parentheses, after)
        else if c == code '=' then some (.opening (.lookahead false), after)
        else if c == code '!' then some (.opening (.lookahead true), after)
        else none
    else some (.opening .capture, rest)

def Escape.token : Escape → Token
  | .byte b => .byte b
  | .ofClass negated c => .set ⟨negated, [.ofClass c]⟩
  | .backreference n => .backreference n
  | .wordBoundary negated => .wordBoundary negated

def readToken? (b : UInt8) (rest : List UInt8) : Option (Token × List UInt8) :=
  match Char.ofNat b.toNat with
  | '\\' => (readEscape? false rest).map fun r => (r.1.token, r.2)
  | '(' => readOpening? rest
  | ')' => some (.closing, rest)
  | '[' => (readSet? rest).map fun r => (.set r.1, r.2)
  | '\x7b' => (readCount? rest).map fun r => quantified r.1 r.2
  | '*' => some (quantified .zeroOrMore rest)
  | '+' => some (quantified .oneOrMore rest)
  | '?' => some (quantified .zeroOrOne rest)
  | '|' => some (.bar, rest)
  | '.' => some (.dot, rest)
  | '^' => some (.lineStart, rest)
  | '$' => some (.lineEnd, rest)
  | _ => some (.byte b, rest)

/-- The tokens of a pattern. Every token takes a byte, so the length bounds their
number. -/
def readTokens? : Nat → List UInt8 → Option (List Token)
  | _, [] => some []
  | 0, _ :: _ => none
  | fuel + 1, b :: rest =>
    match readToken? b rest with
    | none => none
    | some (token, left) => (readTokens? fuel left).map (token :: ·)

def tokens? (pattern : List UInt8) : Option (List Token) :=
  readTokens? pattern.length pattern

end Underwriting.Pattern
