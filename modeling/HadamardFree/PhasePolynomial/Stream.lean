import HadamardFree.Gate.Basic
import HadamardFree.Pauli.Basic

/-!
# Streams of gates and rotations

The middle of a circuit without H gates: Clifford gates and rotations mixed, in
the order in which they are applied.
-/

namespace HadamardFree

/-- A rotation about `axis`. The angle is negated if `sign` holds, and once more
for each measurement in `flips` whose outcome is 1. -/
structure Rotation where
  axis : Pauli
  flips : List Nat
  sign : Bool
  deriving DecidableEq, Repr

inductive StreamOp where
  | gate (g : Gate)
  | rotation (r : Rotation)
  deriving DecidableEq, Repr

namespace StreamOp

def gate? : StreamOp → Option Gate
  | gate g => some g
  | rotation _ => none

def rotation? : StreamOp → Option Rotation
  | gate _ => none
  | rotation r => some r

def gates (stream : List StreamOp) : List Gate :=
  stream.filterMap gate?

def rotations (stream : List StreamOp) : List Rotation :=
  stream.filterMap rotation?

end StreamOp

/-- Whether a list of flips negates an angle of the given sign. There is no
answer if the outcome of a listed measurement is missing. -/
def flippedSign? (sign : Bool) (outcomes : List Bool) : List Nat → Option Bool
  | [] => some sign
  | id :: rest =>
    match outcomes[id]? with
    | none => none
    | some b => flippedSign? (sign ^^ b) outcomes rest

def Rotation.negated? (r : Rotation) (outcomes : List Bool) : Option Bool :=
  flippedSign? r.sign outcomes r.flips

end HadamardFree
