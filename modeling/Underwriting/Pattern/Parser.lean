import Underwriting.Pattern.Token

/-! # Reading patterns

Tokens are put together from left to right. A stack holds the parentheses that are open,
innermost first; each keeps the alternatives before the last bar and the terms after it.
-/
namespace Underwriting.Pattern

/-- One term of an alternative. Assertions are not repeated. -/
structure Term where
  expr : Expr
  isAssertion : Bool
  deriving DecidableEq, Repr

/-- An open parenthesis: what it opened, the alternatives that are complete, and the
terms of the present one, last first. -/
structure Frame where
  opening : Opening
  /-- The number of the group, for captures. -/
  group : Nat
  alternatives : Option Expr
  terms : List Term
  deriving DecidableEq, Repr

namespace Frame

def start (opening : Opening) (group : Nat) : Frame := ⟨opening, group, none, []⟩

def push (f : Frame) (term : Term) : Frame := { f with terms := term :: f.terms }

def alternative (f : Frame) : Expr :=
  f.terms.foldl (fun rest term => .followedBy term.expr rest) .empty

def body (f : Frame) : Expr :=
  match f.alternatives with
  | none => f.alternative
  | some earlier => .choice earlier f.alternative

def split (f : Frame) : Frame := { f with alternatives := some f.body, terms := [] }

def close (f : Frame) : Term :=
  match f.opening with
  | .capture => ⟨.capture f.group f.body, false⟩
  | .parentheses => ⟨.parentheses f.body, false⟩
  | .lookahead negated => ⟨.lookahead negated f.body, true⟩

def isOpenCapture (group : Nat) (f : Frame) : Bool :=
  f.opening == .capture && f.group == group

end Frame

/-- What has been read so far. The outermost frame stands for the whole pattern. -/
structure Progress where
  outermost : Frame
  /-- Open parentheses, innermost first. -/
  inner : List Frame
  groups : Nat
  repetitions : Nat
  deriving DecidableEq, Repr

namespace Progress

def start : Progress := ⟨.start .parentheses 0, [], 0, 0⟩

def top (p : Progress) : Frame := p.inner.headD p.outermost

def withTop (p : Progress) (f : Frame) : Progress :=
  match p.inner with
  | [] => { p with outermost := f }
  | _ :: rest => { p with inner := f :: rest }

def pushTerm (p : Progress) (term : Term) : Progress := p.withTop (p.top.push term)

def pushAtom (p : Progress) (e : Expr) : Progress := p.pushTerm ⟨e, false⟩

def pushAssertion (p : Progress) (e : Expr) : Progress := p.pushTerm ⟨e, true⟩

def openGroup (p : Progress) (opening : Opening) : Progress :=
  match opening with
  | .capture =>
    { p with inner := .start opening (p.groups + 1) :: p.inner, groups := p.groups + 1 }
  | _ => { p with inner := .start opening 0 :: p.inner }

def closeGroup? (p : Progress) : Option Progress :=
  match p.inner with
  | [] => none
  | f :: rest => some ({ p with inner := rest }.pushTerm f.close)

/-- A group can be referred to once it is closed. -/
def canRefer (p : Progress) (group : Nat) : Bool :=
  1 ≤ group && group ≤ p.groups && !p.inner.any (·.isOpenCapture group)

def quantify? (p : Progress) (q : Quantifier) : Option Progress :=
  match p.top.terms with
  | [] => none
  | term :: earlier =>
    if term.isAssertion then none
    else
      let repeated : Term := ⟨.repeated p.repetitions q term.expr, false⟩
      some { p.withTop { p.top with terms := repeated :: earlier } with
        repetitions := p.repetitions + 1 }

def step? (p : Progress) (token : Token) : Option Progress :=
  match token with
  | .byte b => some (p.pushAtom (.byte b))
  | .dot => some (p.pushAtom .dot)
  | .set s => some (p.pushAtom (.set s))
  | .backreference n => if p.canRefer n then some (p.pushAtom (.backreference n)) else none
  | .lineStart => some (p.pushAssertion .lineStart)
  | .lineEnd => some (p.pushAssertion .lineEnd)
  | .wordBoundary negated => some (p.pushAssertion (.wordBoundary negated))
  | .bar => some (p.withTop p.top.split)
  | .opening o => some (p.openGroup o)
  | .closing => p.closeGroup?
  | .quantifier q => p.quantify? q

end Progress

/-- The expression of a valid pattern whose automaton is not too large. -/
def parse? (pattern : List UInt8) : Option Expr :=
  match tokens? pattern with
  | none => none
  | some tokens =>
    match tokens.foldlM Progress.step? Progress.start with
    | none => none
    | some p => if p.inner.isEmpty && p.outermost.body.fits then some p.outermost.body else none

end Underwriting.Pattern
