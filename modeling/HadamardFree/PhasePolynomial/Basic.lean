import HadamardFree.PhasePolynomial.Stream
import HadamardFree.Text.Listing

/-!
# Phase polynomials

A phase polynomial is a list of diagonal rotations on one register. They
commute, and each is known by the qubits it has a Z on.
-/

namespace HadamardFree

/-- A diagonal rotation: bit `k` of `support` says whether there is a Z on
qubit `k`. -/
structure Term where
  support : List Bool
  flips : List Nat
  sign : Bool
  deriving DecidableEq, Repr

namespace Term

def qubits (t : Term) : List Nat :=
  (List.range t.support.length).filter fun k => t.support.getD k false

def negated? (t : Term) (outcomes : List Bool) : Option Bool :=
  flippedSign? t.sign outcomes t.flips

def axis (t : Term) : Pauli :=
  ⟨t.support.map fun b => if b then .Z else .I⟩

def toRotation (t : Term) : Rotation :=
  ⟨t.axis, t.flips, t.sign⟩

/-- The rotation seen from before a CX gate that follows it: a Z on the target
is a Z on both. -/
def passCX (c target : Nat) (t : Term) : Term :=
  { t with support := t.support.modify c (· ^^ t.support.getD target false) }

def text (t : Term) : String :=
  t.axis.text ++ (if t.sign then " - " else " + ") ++ Text.numbers t.flips

@[simp] theorem length_support_passCX (c target : Nat) (t : Term) :
    (t.passCX c target).support.length = t.support.length := by
  simp [passCX]

end Term

structure PhasePolynomial where
  width : Nat
  terms : List Term
  deriving DecidableEq, Repr

/-- Why a term or a stream does not make a phase polynomial. Rotations are
counted from 0 in stream order. -/
inductive FoldError where
  | notDiagonal (rotation qubit : Nat) (letter : Letter)
  | widthMismatch (rotation expected found : Nat)
  | qubitOutOfRange (gate : Gate) (width : Nat)
  | shapeMismatch
  deriving DecidableEq, Repr

def FoldError.message : FoldError → String
  | notDiagonal r q a =>
    s!"rotation {r} is not diagonal: found " ++ a.toChar.toString ++ s!" on qubit {q}"
  | widthMismatch r expected found =>
    s!"rotation {r} spans {found} qubit(s), but the register has {expected}"
  | qubitOutOfRange g width =>
    "gate " ++ g.text ++ s!" acts outside a {width}-qubit register"
  | shapeMismatch => "shape error: ShapeError/IncompatibleShape: incompatible shapes"

namespace PhasePolynomial

def empty (width : Nat) : PhasePolynomial :=
  ⟨width, []⟩

def empty? (width : Nat) : Option PhasePolynomial :=
  if fitsLetters width then some (empty width) else none

def size (poly : PhasePolynomial) : Nat :=
  poly.terms.length

def get? (poly : PhasePolynomial) (k : Nat) : Option Term :=
  poly.terms[k]?

/-- Appends a term, whose support has to span the register. -/
def push (poly : PhasePolynomial) (t : Term) : Except FoldError PhasePolynomial :=
  if t.support.length = poly.width then .ok { poly with terms := poly.terms ++ [t] }
  else .error .shapeMismatch

/-- Moves a CX gate from behind all terms to before them. -/
def passCX (poly : PhasePolynomial) (c t : Nat) : PhasePolynomial :=
  { poly with terms := poly.terms.map (Term.passCX c t) }

/-- As `passCX`, but refuses qubits outside the register. Without terms there
is nothing to move the gate past, so no qubit is looked at. -/
def passCX? (poly : PhasePolynomial) (c t : Nat) : Option PhasePolynomial :=
  if poly.terms = [] ∨ c < poly.width ∧ t < poly.width then some (poly.passCX c t) else none

def stream (poly : PhasePolynomial) : List StreamOp :=
  poly.terms.map fun t => .rotation t.toRotation

def text (poly : PhasePolynomial) : String :=
  Text.lines (poly.terms.map Term.text)

@[simp] theorem width_passCX (poly : PhasePolynomial) (c t : Nat) :
    (poly.passCX c t).width = poly.width := rfl

@[simp] theorem size_passCX (poly : PhasePolynomial) (c t : Nat) :
    (poly.passCX c t).size = poly.size := by
  simp [passCX, size]

end PhasePolynomial

end HadamardFree
