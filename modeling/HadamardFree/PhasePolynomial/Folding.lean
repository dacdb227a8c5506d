import HadamardFree.PhasePolynomial.Basic

/-!
# Folding CX gates

Turns a stream into a Clifford circuit followed by a phase polynomial. S and CZ
gates commute with diagonal rotations; a CX gate passes to the front of them
when it is folded into their supports.
-/

namespace HadamardFree

/-- First `clifford`, then the rotations of `poly`. -/
structure Folded where
  poly : PhasePolynomial
  clifford : List Gate
  deriving DecidableEq, Repr

/-- The support of rotation number `rotation`. Its length is looked at before
its letters, of which the first X or Y is reported. -/
def Pauli.support (p : Pauli) (rotation width : Nat) : Except FoldError (List Bool) :=
  if p.size = width then
    match p.letters.zipIdx.find? fun (a, _) => !a.isDiagonal with
    | some (a, q) => .error (.notDiagonal rotation q a)
    | none => .ok p.zBits
  else .error (.widthMismatch rotation width p.size)

/-- The effect on the terms so far of bringing a gate to their front. -/
def PhasePolynomial.passGate (poly : PhasePolynomial) : Gate → PhasePolynomial
  | .cx c t => poly.passCX c t
  | _ => poly

namespace Folded

def absorb (f : Folded) : StreamOp → Except FoldError Folded
  | .rotation r => do
    let support ← r.axis.support f.poly.size f.poly.width
    let poly ← f.poly.push ⟨support, r.flips, r.sign⟩
    return { f with poly }
  | .gate g =>
    if g.fits f.poly.width then .ok ⟨f.poly.passGate g, f.clifford ++ [g]⟩
    else .error (.qubitOutOfRange g f.poly.width)

/-- Folds every CX gate of the stream into the rotations before it. All gates
stay in the Clifford circuit, in stream order. -/
def ofStream (stream : List StreamOp) (width : Nat) : Except FoldError Folded :=
  stream.foldlM absorb ⟨.empty width, []⟩

/-- As `ofStream`, if there can be a polynomial on a register of this width. -/
def ofStream? (stream : List StreamOp) (width : Nat) : Option (Except FoldError Folded) :=
  if fitsLetters width then some (ofStream stream width) else none

end Folded

/-- The CX gates of a stream that follows `terms` rotations, each with the
number of rotations it is folded into. -/
def foldsFrom (terms : Nat) : List StreamOp → List (Gate × Nat)
  | [] => []
  | .rotation _ :: rest => foldsFrom (terms + 1) rest
  | .gate g :: rest =>
    if g.isCX then (g, terms) :: foldsFrom terms rest else foldsFrom terms rest

def folds (stream : List StreamOp) : List (Gate × Nat) :=
  foldsFrom 0 stream

end HadamardFree
