import HadamardFree.Gadget.Byproduct

/-!
# Replacing H gates by gadgets

Each H gate on a qubit becomes a gadget: a fresh slot is prepared in the state
plus, a CZ gate joins it to the slot that holds the qubit, and the old slot is
measured in the X basis at the very end. The qubit then lives in the fresh slot.
What stays in the middle are S, CX and CZ gates and rotations.
-/

namespace HadamardFree

/-- The replacement of one H gate on `qubit` in step `step`. Outcome `id` of
the retired slot decides whether the rotations of the steps in `flips` turn the
other way and `correction` has to be undone. -/
structure Gadget where
  id : Nat
  qubit : Nat
  step : Nat
  retired : Nat
  fresh : Nat
  flips : List Nat
  correction : Pauli
  deriving DecidableEq, Repr

namespace Gadget

def preparations (gadgets : List Gadget) : List Gate :=
  gadgets.map fun g => .h g.fresh

/-- Measurements of the retired slots in the X basis. -/
def readout (gadgets : List Gadget) : List Gate :=
  gadgets.flatMap fun g => [.h g.retired, .meas g.retired g.id]

def corrections (gadgets : List Gadget) : List Pauli :=
  gadgets.map correction

/-- The measurements that flip the rotation of the given step. -/
def flipping (gadgets : List Gadget) (step : Nat) : List Nat :=
  (gadgets.filter fun g => g.flips.contains step).map id

def correctionsText (gadgets : List Gadget) : String :=
  Text.lines (gadgets.map fun g => s!"m{g.id}: " ++ g.correction.text)

end Gadget

/-- One thing emitted for the middle of the circuit. -/
inductive Emitted where
  | gate (g : Gate)
  | gadget (g : Gadget)
  | rotation (step : Nat) (axis : Pauli) (sign : Bool)
  deriving DecidableEq, Repr

namespace Emitted

def gadget? : Emitted → Option Gadget
  | gadget g => some g
  | gate _ | rotation _ _ _ => none

/-- The operation on the register, given all gadgets of the circuit. -/
def toOp (gadgets : List Gadget) : Emitted → StreamOp
  | gate g => .gate g
  | gadget g => .gate (.cz g.retired g.fresh)
  | rotation step axis sign => .rotation ⟨axis, Gadget.flipping gadgets step, sign⟩

/-- Emits a piece of step `step`, or what is left of it, before the steps
`later`. -/
def ofPiece (step : Nat) (later : List Step) :
    List Gate → Register → Except GadgetError (List Emitted × Register)
  | [], r => .ok ([], r)
  | g :: tail, r => do
    let (placed, r) ← r.placeGate step g
    match placed with
    | .gate g =>
      let (rest, r) ← ofPiece step later tail r
      return (gate g :: rest, r)
    | .moved m =>
      let (id, r) := r.newOutcome
      let b ← Byproduct.follow step tail later m.fresh r
      let (rest, r) ← ofPiece step later tail r
      return (gadget ⟨id, m.qubit, step, m.retired, m.fresh, b.flips, b.correction⟩ :: rest, r)

/-- Emits whole steps, the first of which has number `step`. -/
def ofSteps (step : Nat) :
    List Step → Register → Except GadgetError (List Emitted × Register)
  | [], r => .ok ([], r)
  | s :: later, r => do
    let (piece, r) ← ofPiece step later s.piece r
    let axis ← r.placeAxis step s.axis
    let (rest, r) ← ofSteps (step + 1) later r
    return (piece ++ rotation step axis s.sign :: rest, r)

end Emitted

/-- A circuit with gadgets, before its CX gates are folded: what was emitted,
and where the logical qubits end up on a register of `width` slots. -/
structure Unfolded where
  width : Nat
  emitted : List Emitted
  layout : Placement
  deriving DecidableEq, Repr

namespace Unfolded

def gadgets (u : Unfolded) : List Gadget :=
  u.emitted.filterMap Emitted.gadget?

def beginning (u : Unfolded) : List Gate :=
  Gadget.preparations u.gadgets

def stream (u : Unfolded) : List StreamOp :=
  u.emitted.map (Emitted.toOp u.gadgets)

def ending (u : Unfolded) : List Gate :=
  Gadget.readout u.gadgets

def corrections (u : Unfolded) : List Pauli :=
  Gadget.corrections u.gadgets

end Unfolded

/-- Replaces every H gate. The register is as wide as predicted from their
number. -/
def Network.unfolded (network : Network) : Except GadgetError Unfolded :=
  match network.width? with
  | none => .error .emptyNetwork
  | some n =>
    match network.fault? n with
    | some e => .error e
    | none => do
      let width := n + network.hCount
      let (emitted, r) ← Emitted.ofSteps 0 network.steps (.start n width)
      return ⟨width, emitted, r.placement⟩

end HadamardFree
