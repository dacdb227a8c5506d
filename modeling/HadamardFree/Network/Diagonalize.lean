import HadamardFree.Network.Basic
import HadamardFree.Pauli.Conjugation

/-!
# Diagonalizing a list of operators

A network for a list of Pauli operators, built greedily. Each operator, seen in
the frame of the pieces before it, is reduced to one without X part: CX gates
gather the X part on one qubit, an S gate removes a Z part from it, and an H
gate turns it into Z.
-/

namespace HadamardFree

namespace Pauli

/-- The qubits that carry an X part. -/
def xQubits (p : Pauli) : List Nat :=
  (List.range p.size).filter fun k => (p.letter k).x

/-- The piece that makes `p` diagonal. The last qubit with an X part is the
control of all CX gates. -/
def reduction (p : Pauli) : List Gate :=
  match p.xQubits.getLast? with
  | none => []
  | some control =>
    let gather := p.xQubits.dropLast.map (Gate.cx control)
    let gathered := (p.advance gather).1
    gather ++ (if (gathered.letter control).z then [.s control] else []) ++ [.h control]

end Pauli

namespace Network

/-- The steps for the remaining operators, in the frame of the gates so far. A
piece has to act on every operator of the list, which fails if some are too
short for it. -/
def stepsFrom (all : List Pauli) (frame : List Gate) :
    List Pauli → Except ConjugationError (List Step)
  | [] => .ok []
  | p :: rest => do
    let current ← p.conjugate frame
    let piece := current.reduction
    let _ ← all.mapM (·.conjugate piece)
    let axis ← current.conjugate piece
    let steps ← stepsFrom all (frame ++ piece) rest
    return ⟨piece, axis, false⟩ :: steps

def ofPaulis (paulis : List Pauli) : Except ConjugationError Network := do
  let steps ← stepsFrom paulis [] paulis
  return ⟨steps⟩

end Network

end HadamardFree
