import HadamardFree.Capacity
import HadamardFree.Gate.Basic

/-!
# CX count and CX depth

The depth of a circuit in CX gates is the length of its longest chain: CX gates
in circuit order, each sharing a qubit with the one before. One pass suffices,
because the longest chain that a CX gate ends extends the longer of the two
that end on its qubits.
-/

namespace HadamardFree.Gate

def cxCount (gates : List Gate) : Nat :=
  gates.countP isCX

/-- The length of the longest chain that ends on qubit `q`. Newer entries stand
first, and a qubit without an entry has met no CX gate. -/
def chainAt (ends : List (Nat × Nat)) (q : Nat) : Nat :=
  (ends.lookup q).getD 0

def extendChains (ends : List (Nat × Nat)) : Gate → List (Nat × Nat)
  | cx c t =>
    let length := max (chainAt ends c) (chainAt ends t) + 1
    (c, length) :: (t, length) :: ends
  | _ => ends

def cxDepth (gates : List Gate) : Nat :=
  ((gates.foldl extendChains []).map Prod.snd).foldl max 0

/-- The number of qubits up to the highest one that any of the gates acts on. -/
def span (gates : List Gate) : Nat :=
  ((gates.flatMap qubits).map (· + 1)).foldl max 0

/-- The depth, if there can be a table with a chain length for every qubit of
the span. -/
def cxDepth? (gates : List Gate) : Option Nat :=
  if fitsNumbers (span gates) then some (cxDepth gates) else none

end HadamardFree.Gate
