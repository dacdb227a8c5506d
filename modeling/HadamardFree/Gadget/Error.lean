import HadamardFree.Network.Basic
import HadamardFree.Pauli.Conjugation
import HadamardFree.PhasePolynomial.Basic
import HadamardFree.Register.Basic

/-!
# What can be wrong with a network

The causes for which H gates cannot be replaced, and the check of a network
that comes before anything is emitted.
-/

namespace HadamardFree

inductive GadgetError where
  | emptyNetwork
  | malformedRotation (step expected found : Nat)
  | qubitOutOfRange (step : Nat) (gate : Gate) (width : Nat)
  | unsupportedGate (step : Nat) (gate : Gate)
  | stepOutOfRange (step size : Nat)
  | registerFull (width : Nat)
  | conjugation (cause : ConjugationError)
  | folding (cause : FoldError)
  deriving DecidableEq, Repr

def GadgetError.message : GadgetError → String
  | emptyNetwork => "cannot gadgetize an empty network"
  | malformedRotation step expected found =>
    s!"rotation at step {step} has {found} letter(s), but the register has {expected} qubit(s)"
  | qubitOutOfRange step g width =>
    "gate " ++ g.text ++ s!" at step {step} acts outside the {width}-qubit register"
  | unsupportedGate step g =>
    "gate " ++ g.text ++ s!" at step {step} is not allowed in a network piece"
  | stepOutOfRange step size =>
    s!"step {step} is out of range for a network of {size} step(s)"
  | registerFull width => s!"no free slots left in a register of width {width}"
  | conjugation cause => "Pauli error: " ++ cause.message
  | folding cause => "phase polynomial error: " ++ cause.message

/-- The kind of a gate is looked at before its qubits. -/
def Gate.fault? (n step : Nat) (g : Gate) : Option GadgetError :=
  if !g.isElementary then some (.unsupportedGate step g)
  else if !g.fits n then some (.qubitOutOfRange step g n)
  else none

/-- The axis of a step is looked at before its gates. -/
def Step.fault? (n step : Nat) (s : Step) : Option GadgetError :=
  if s.axis.size = n then s.piece.findSome? (Gate.fault? n step)
  else some (.malformedRotation step n s.axis.size)

/-- The first fault of a network on `n` qubits, in reading order. -/
def Network.fault? (n : Nat) (network : Network) : Option GadgetError :=
  network.steps.zipIdx.findSome? fun (s, step) => s.fault? n step

/-- Places a gate of the given step. -/
def Register.placeGate (r : Register) (step : Nat) (g : Gate) :
    Except GadgetError (Placed × Register) :=
  match r.place g with
  | .ok placed => .ok placed
  | .error .noSuchQubit => .error (.qubitOutOfRange step g r.size)
  | .error .full => .error (.registerFull r.width)

/-- The axis of the given step on the slots of the register. -/
def Register.placeAxis (r : Register) (step : Nat) (axis : Pauli) :
    Except GadgetError Pauli :=
  match r.lift? axis with
  | some axis => .ok axis
  | none => .error (.malformedRotation step r.size axis.size)

end HadamardFree
