import Underwriting.Pattern.ByteSet

/-! # Patterns

The expressions that patterns are made of, and the number of automaton states one
takes: patterns that take too many are refused.
-/
namespace Underwriting.Pattern

inductive Count where
  | zeroOrOne
  | zeroOrMore
  | oneOrMore
  /-- At least `least` times, and at most `further` times more if that is given. -/
  | atLeast (least : Nat) (further : Option Nat)
  deriving DecidableEq, Repr

structure Quantifier where
  count : Count
  greedy : Bool
  deriving DecidableEq, Repr

inductive Expr where
  | empty
  | byte (b : UInt8)
  /-- Any byte but a line feed or a carriage return. -/
  | dot
  | set (s : ByteSet)
  | backreference (group : Nat)
  | lineStart
  | lineEnd
  | wordBoundary (negated : Bool)
  | lookahead (negated : Bool) (body : Expr)
  | parentheses (body : Expr)
  | capture (group : Nat) (body : Expr)
  | followedBy (first rest : Expr)
  | choice (left right : Expr)
  /-- A repeated expression. Each has a number of its own. -/
  | repeated (number : Nat) (quantifier : Quantifier) (body : Expr)
  deriving DecidableEq, Repr

/-- The automaton states of one copy of an expression, and all states built while it is
put together: counted repetition copies its body and leaves the first one unused. -/
structure States where
  inUse : Nat
  built : Nat
  deriving DecidableEq, Repr

def Count.states (body : States) : Count → States
  | .zeroOrOne => ⟨body.inUse + 2, body.built + 2⟩
  | .zeroOrMore => ⟨body.inUse + 1, body.built + 1⟩
  | .oneOrMore => ⟨body.inUse + 1, body.built + 1⟩
  | .atLeast least none =>
    let copies := 1 + least * body.inUse + (body.inUse + 1)
    ⟨copies, body.built + copies⟩
  | .atLeast least (some further) =>
    let copies := 1 + least * body.inUse + (1 + further * (body.inUse + 1))
    ⟨copies, body.built + copies⟩

namespace Expr

def states : Expr → States
  | .lookahead _ body => let s := body.states; ⟨s.inUse + 2, s.built + 2⟩
  | .parentheses body => let s := body.states; ⟨s.inUse + 1, s.built + 1⟩
  | .capture _ body => let s := body.states; ⟨s.inUse + 2, s.built + 2⟩
  | .followedBy first rest =>
    let s := first.states
    let t := rest.states
    ⟨s.inUse + t.inUse, s.built + t.built⟩
  | .choice left right =>
    let s := left.states
    let t := right.states
    ⟨s.inUse + t.inUse + 2, s.built + t.built + 2⟩
  | .repeated _ q body => q.count.states body.states
  | _ => ⟨1, 1⟩

def maxStates : Nat := 100000

/-- Whether the automaton of an expression, with its start, its end and the capture of
the whole match, can be built. -/
def fits (e : Expr) : Bool := e.states.built + 3 ≤ maxStates

end Expr
end Underwriting.Pattern
