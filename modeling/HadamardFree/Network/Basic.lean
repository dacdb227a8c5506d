import HadamardFree.Gate.Basic
import HadamardFree.Pauli.Basic

/-!
# Networks

A network applies Pauli rotations one after the other. Each step brings its
rotation into diagonal form by a piece of Clifford circuit; the pieces are not
undone, so an axis is diagonal in the frame of all pieces up to its own.
-/

namespace HadamardFree

/-- A piece, then a rotation about `axis`, by the negated angle if `sign`. -/
structure Step where
  piece : List Gate
  axis : Pauli
  sign : Bool
  deriving DecidableEq, Repr

structure Network where
  steps : List Step
  deriving DecidableEq, Repr

def Step.hCount (s : Step) : Nat :=
  s.piece.countP Gate.isH

namespace Network

def size (network : Network) : Nat :=
  network.steps.length

def get? (network : Network) (k : Nat) : Option Step :=
  network.steps[k]?

/-- The number of logical qubits is read off the first axis. -/
def width? (network : Network) : Option Nat :=
  network.steps.head?.map fun s => s.axis.size

def hCount (network : Network) : Nat :=
  (network.steps.flatMap Step.piece).countP Gate.isH

/-- The slots needed to replace every H gate: one more for each. -/
def slotsNeeded? (network : Network) : Option Nat :=
  network.width?.map (· + network.hCount)

end Network

end HadamardFree
