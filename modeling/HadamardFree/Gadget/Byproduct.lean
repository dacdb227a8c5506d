import HadamardFree.Gadget.Error

/-!
# Byproducts

A gadget whose measurement gives 1 leaves an X on its fresh slot. The X is not
undone there: it is pushed forward through the rest of the network. Rotations
it does not commute with turn the other way, and what is left of it at the end
is a Pauli correction. It travels on the slots of the register, so at a later
H gate it moves with the qubit to the next fresh slot.
-/

namespace HadamardFree

/-- What becomes of a byproduct: the steps whose rotations it flips, in order,
and the operator left on the register after the network. -/
structure Byproduct where
  flips : List Nat
  correction : Pauli
  deriving DecidableEq, Repr

/-- A byproduct on its way: the operator so far, and the register that the
gates before it have left. -/
structure Front where
  operator : Pauli
  register : Register
  deriving DecidableEq, Repr

namespace Front

def conjugate (operator : Pauli) (register : Register) : Placed → Except ConjugationError Front
  | .gate g => do
    let operator ← operator.conjugateGate g
    return ⟨operator, register⟩
  | .moved m => do
    let turned ← operator.conjugateGate (.h m.retired)
    let operator ← turned.moveLetter m.retired m.fresh
    return ⟨operator, register⟩

def passGate (step : Nat) (f : Front) (g : Gate) : Except GadgetError Front :=
  match f.register.placeGate step g with
  | .error e => .error e
  | .ok (placed, register) => (conjugate f.operator register placed).mapError .conjugation

def passPiece (step : Nat) (f : Front) (piece : List Gate) : Except GadgetError Front :=
  piece.foldlM (passGate step) f

/-- Goes through whole steps, the first of which has number `step`. -/
def passSteps (step : Nat) (f : Front) : List Step → Except GadgetError Byproduct
  | [] => .ok ⟨[], f.operator⟩
  | s :: later => do
    let f ← f.passPiece step s.piece
    let axis ← f.register.placeAxis step s.axis
    let b ← f.passSteps (step + 1) later
    return if axis.commutes f.operator then b else { b with flips := step :: b.flips }

end Front

namespace Byproduct

/-- Follows an X on slot `target` through the `tail` of the piece of step
`start` and the steps after it. The rotation of step `start` counts as flipped
and its axis is not looked at. -/
def follow (start : Nat) (tail : List Gate) (later : List Step) (target : Nat)
    (register : Register) : Except GadgetError Byproduct := do
  let f ← Front.passPiece start ⟨.single register.width target .X, register⟩ tail
  let b ← f.passSteps (start + 1) later
  return { b with flips := start :: b.flips }

/-- Follows an X on slot `target` from behind the gate at `offset` in the piece
of step `start`. Slot and step are looked at first. There is no answer if an
operator on the whole register cannot be laid out, or if the position behind
the gate is not a word. -/
def ofGate? (network : Network) (start offset target : Nat) (register : Register) :
    Option (Except GadgetError Byproduct) :=
  if target < register.width then
    match network.get? start with
    | none => some (.error (.stepOutOfRange start network.size))
    | some s =>
      if fitsLetters register.width && fitsWord (offset + 1) then
        some (follow start (s.piece.drop (offset + 1)) (network.steps.drop (start + 1)) target
          register)
      else none
  else some (.error (.conjugation (.qubitOutOfRange target register.width)))

end Byproduct

end HadamardFree
