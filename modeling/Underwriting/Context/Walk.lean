import Underwriting.Context

/-! # Walking along a dotted path

A path is walked as it stands, from dot to dot. The text behind a dot is cut out up to the next
dot, or to the end of the path if there is none.
-/
namespace Underwriting

namespace Text

def find? (c : Char) (cs : List Char) (start : Nat) : Option Nat :=
  ((cs.drop start).idxOf? c).map (start + ·)

structure OutOfRange where
  start : Nat
  length : Nat
  deriving DecidableEq, Repr

def part (cs : List Char) (start : Nat) (stop : Option Nat) : Except OutOfRange (List Char) :=
  if cs.length < start then .error ⟨start, cs.length⟩
  else
    match stop with
    | none => .ok (cs.drop start)
    | some stop => .ok ((cs.drop start).take (stop - start))

theorem lt_of_find? {c : Char} {cs : List Char} {start i : Nat} (h : find? c cs start = some i) :
    start ≤ i ∧ i < cs.length := by
  obtain ⟨k, hk, rfl⟩ := Option.map_eq_some_iff.mp h
  obtain ⟨hlt, -⟩ := List.idxOf?_eq_some_iff.mp hk
  rw [List.length_drop] at hlt
  omega

end Text

/-- The walk from a value, with a dot behind what led to it or at the end of the path. -/
def Path.walk (path : List Char) (current : Option Value) (dot : Option Nat) :
    Except Text.OutOfRange (Option Value) :=
  match current, dot with
  | some v, some dot =>
    let next := Text.find? '.' path (dot + 1)
    match Text.part path (dot + 1) next with
    | .error e => .error e
    | .ok segment => walk path (v.step (String.ofList segment)) next
  | current, _ => .ok current
-- a dot that is found lies in the path, behind the last one
termination_by dot.elim 0 fun dot => path.length - dot + 1
decreasing_by
  cases hnext : Text.find? '.' path (dot + 1) with
  | none => simp
  | some i =>
    have := Text.lt_of_find? hnext
    simp only [Option.elim]
    omega

def Members.walk (context : Members) (path : String) : Except Text.OutOfRange (Option Value) :=
  let first := Text.find? '.' path.toList 0
  match Text.part path.toList 0 first with
  | .error e => .error e
  | .ok segment => Path.walk path.toList (context.get? (String.ofList segment)) first

/-- Writes a value along a path from a position on. The text up to the next dot is the key of an
object, which is made if there is none, and the text behind the last dot is the key of the value. -/
def Path.writeFrom (path : List Char) (members : Members) (v : Value) (start : Nat) :
    Except Text.OutOfRange Members :=
  match Text.part path start (Text.find? '.' path start) with
  | .error e => .error e
  | .ok segment =>
    let key := String.ofList segment
    match _h : Text.find? '.' path start with
    | none => .ok (members.insert key v)
    | some dot =>
      match writeFrom path (Value.membersOrEmpty (members.get? key)) v (dot + 1) with
      | .error e => .error e
      | .ok inner => .ok (members.insert key (.object inner))
-- a dot that is found lies in the path, at the position or behind it
termination_by path.length - start
decreasing_by
  have := Text.lt_of_find? _h
  omega

def Members.writeAlong (members : Members) (path : String) (v : Value) :
    Except Text.OutOfRange Members :=
  Path.writeFrom path.toList members v 0

end Underwriting
