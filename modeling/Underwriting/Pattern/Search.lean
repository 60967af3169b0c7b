import Underwriting.Pattern.Parser

/-! # Searching a text for a pattern

A depth-first search over the bytes of a text, which tries alternatives from left to
right and repeats as long as, or as shortly as, a quantifier asks. The function that is
run on each match of an expression carries on with what follows the expression; when it
fails, the next way to match is tried.

Two rules make the search finish and fix its outcome. The body of a repetition is
entered at most twice at one place of the text. And what a lookahead captured stays
captured, also when the way that led through the lookahead fails in the end, until the
search starts over at the next place.
-/
namespace Underwriting.Pattern

/-- A repetition in one of the copies that counted repetitions around it make. -/
structure Site where
  number : Nat
  copies : List Nat
  deriving DecidableEq, Repr

structure Place where
  position : Nat
  previous : Option UInt8
  rest : List UInt8
  /-- Repetitions whose bodies were entered here, once for each time. -/
  entered : List Site

namespace Place

def start (text : List UInt8) : Place := ⟨0, none, text, []⟩

/-- The next place, where nothing was entered yet. -/
def next (p : Place) (b : UInt8) (rest : List UInt8) : Place :=
  ⟨p.position + 1, some b, rest, []⟩

def skip? (p : Place) : List UInt8 → Option Place
  | [] => some p
  | b :: bs =>
    match p.rest with
    | c :: rest => if b = c then skip? (p.next c rest) bs else none
    | [] => none

/-- The place inside the body of a repetition, unless it was entered twice here. -/
def enter? (p : Place) (site : Site) : Option Place :=
  if p.entered.count site < 2 then some { p with entered := site :: p.entered } else none

end Place

abbrev Captures := List (Nat × List UInt8)

namespace Captures

def get? (c : Captures) (group : Nat) : Option (List UInt8) := List.lookup group c

def set (c : Captures) (group : Nat) (bytes : Option (List UInt8)) : Captures :=
  let others := c.filter fun e => e.1 != group
  match bytes with
  | some bs => (group, bs) :: others
  | none => others

end Captures

structure Outcome where
  found : Bool
  captures : Captures

def Outcome.fail (c : Captures) : Outcome := ⟨false, c⟩

abbrev Continuation := Place → Captures → Outcome

/-- The second way is tried when the first one fails. -/
def Outcome.orElse (first : Outcome) (second : Captures → Outcome) : Outcome :=
  if first.found then first else second first.captures

structure Origin where
  position : Nat
  /-- Whether the search is the one from the start of the text, so that nothing stands
  before its origin. -/
  isFirst : Bool

def isWordByte (b : Option UInt8) : Bool :=
  match b with
  | some b => ByteClass.word.mem b
  | none => false

/-- Whether a word begins or ends here. The byte before the origin of a search from the
start of the text does not count. -/
def isWordBoundary (o : Origin) (p : Place) : Bool :=
  let left := (p.position != o.position || !o.isFirst) && isWordByte p.previous
  left != isWordByte p.rest.head?

/-- The ways to match the body of a repetition once more or go on, in the order that
greed gives. -/
def alternate (greedy : Bool) (again : Captures → Outcome) (go : Captures → Outcome)
    (c : Captures) : Outcome :=
  if greedy then (again c).orElse go else (go c).orElse again

abbrev Matcher := List Nat → Place → Captures → Continuation → Outcome

/-- Any number of times. Each time consumes a byte or is an entry at the same place, so
twice the length of the text bounds them. -/
def repeatMany (body : Matcher) (site : Site) (copies : List Nat) (greedy : Bool)
    (k : Continuation) : Nat → Place → Captures → Outcome
  | 0, _, c => .fail c
  | fuel + 1, p, c =>
    alternate greedy
      (fun c =>
        match p.enter? site with
        | none => .fail c
        | some inside => body copies inside c (repeatMany body site copies greedy k fuel))
      (k p) c

def repeatBound (p : Place) : Nat := 2 * p.rest.length + 3

def repeatOnce (body : Matcher) (site : Site) (copies : List Nat) (greedy : Bool)
    (k : Continuation) (p : Place) (c : Captures) : Outcome :=
  alternate greedy
    (fun c =>
      match p.enter? site with
      | none => .fail c
      | some inside => body copies inside c k)
    (k p) c

def repeatUpTo (body : Matcher) (number : Nat) (copies : List Nat) (greedy : Bool)
    (k : Continuation) : Nat → Nat → Place → Captures → Outcome
  | 0, _, p, c => k p c
  | more + 1, index, p, c =>
    alternate greedy
      (fun c =>
        match p.enter? ⟨number, index :: copies⟩ with
        | none => .fail c
        | some inside =>
          body (index :: copies) inside c (repeatUpTo body number copies greedy k more (index + 1)))
      (k p) c

def repeatExactly (body : Matcher) (copies : List Nat) (k : Continuation) :
    Nat → Nat → Place → Captures → Outcome
  | 0, _, p, c => k p c
  | more + 1, index, p, c =>
    body (index :: copies) p c (repeatExactly body copies k more (index + 1))

def repeatAs (number : Nat) (q : Quantifier) (body : Matcher) : Matcher :=
  fun copies p c k =>
    match q.count with
    | .zeroOrOne => repeatOnce body ⟨number, copies⟩ copies q.greedy k p c
    | .zeroOrMore =>
      repeatMany body ⟨number, copies⟩ copies q.greedy k (repeatBound p) p c
    | .oneOrMore =>
      body copies p c fun p c =>
        repeatMany body ⟨number, copies⟩ copies q.greedy k (repeatBound p) p c
    | .atLeast least none =>
      repeatExactly body copies
        (fun p c =>
          repeatMany body ⟨number, least :: copies⟩ (least :: copies) q.greedy k
            (repeatBound p) p c)
        least 0 p c
    | .atLeast least (some further) =>
      repeatExactly body copies
        (fun p c => repeatUpTo body number copies q.greedy k further least p c)
        least 0 p c

namespace Expr

/-- Matches an expression at a place and carries on. The copies are those of the counted
repetitions around the expression, innermost first. -/
def run (e : Expr) (o : Origin) (copies : List Nat) (p : Place) (c : Captures)
    (k : Continuation) : Outcome :=
  match e with
  | .empty => k p c
  | .byte b =>
    match p.rest with
    | d :: rest => if b = d then k (p.next d rest) c else .fail c
    | [] => .fail c
  | .dot =>
    match p.rest with
    | d :: rest => if d = 10 ∨ d = 13 then .fail c else k (p.next d rest) c
    | [] => .fail c
  | .set s =>
    match p.rest with
    | d :: rest => if s.mem d then k (p.next d rest) c else .fail c
    | [] => .fail c
  | .backreference group =>
    match c.get? group with
    | none => .fail c
    | some bytes =>
      match p.skip? bytes with
      | some after => k after c
      | none => .fail c
  | .lineStart => if o.isFirst && p.position == o.position then k p c else .fail c
  | .lineEnd => if p.rest.isEmpty then k p c else .fail c
  | .wordBoundary negated => if isWordBoundary o p != negated then k p c else .fail c
  | .lookahead negated body =>
    let ahead :=
      body.run ⟨p.position, o.isFirst⟩ copies { p with entered := [] } c fun _ c => ⟨true, c⟩
    let c := if ahead.found then ahead.captures else c
    if ahead.found != negated then k p c else .fail c
  | .parentheses body => body.run o copies p c k
  | .capture group body =>
    body.run o copies p c fun after c =>
      let outcome := k after (c.set group (some (p.rest.take (after.position - p.position))))
      if outcome.found then outcome
      else .fail (outcome.captures.set group (c.get? group))
  | .followedBy first rest => first.run o copies p c fun p c => rest.run o copies p c k
  | .choice left right =>
    (left.run o copies p c k).orElse fun c => right.run o copies p c k
  | .repeated number q body =>
    repeatAs number q (fun copies p c k => body.run o copies p c k) copies p c k

end Expr

def matchesAt (e : Expr) (p : Place) : Bool :=
  (e.run ⟨p.position, p.position == 0⟩ [] p [] fun _ c => ⟨true, c⟩).found

def searchFrom (e : Expr) (position : Nat) (previous : Option UInt8) :
    List UInt8 → Bool
  | [] => matchesAt e ⟨position, previous, [], []⟩
  | b :: rest =>
    matchesAt e ⟨position, previous, b :: rest, []⟩ ||
      searchFrom e (position + 1) (some b) rest

/-- Texts and patterns longer than this many bytes are not searched. -/
def maxBytes : Nat := 4096

/-- Whether a text contains a match of a pattern. Invalid patterns match nothing. -/
def search (pattern text : String) : Bool :=
  if text.utf8ByteSize > maxBytes ∨ pattern.utf8ByteSize > maxBytes then false
  else
    match parse? pattern.toUTF8.toList with
    | none => false
    | some e => searchFrom e 0 none text.toUTF8.toList

end Underwriting.Pattern
