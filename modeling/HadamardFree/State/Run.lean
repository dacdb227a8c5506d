import HadamardFree.Gadget.Circuit
import HadamardFree.State.Evolution

/-!
# Running networks and circuits

A network is run directly, its H gates as gates. A circuit with gadgets is run
under given outcomes of its measurements; the qubits of the network are then
read from where the layout puts them.
-/

namespace HadamardFree.State

variable {K R : Type}
variable [Zero K] [One K] [Add K] [Sub K] [Neg K] [Mul K]
variable [Zero R] [Add R] [Neg R] [Amplitude K R]

def signed (negated : Bool) (angle : R) : R :=
  if negated then -angle else angle

/-- Runs the piece of a step and rotates by `angle`. The axis has to be
diagonal. -/
def runStep? (s : State K) (step : Step) (angle : R) : Option (State K) := do
  let s ← s.applyGates? step.piece
  if step.axis.isDiagonal then
    some (s.rotate (mask step.axis.zBits) (signed step.sign angle))
  else none

def runSteps? (s : State K) : List (Step × R) → Option (State K)
  | [] => some s
  | (step, angle) :: rest => do
    let s ← s.runStep? step angle
    s.runSteps? rest

/-- Runs the steps for which there is an angle. -/
def runNetwork? (s : State K) (network : Network) (angles : List R) : Option (State K) :=
  s.runSteps? (network.steps.zip angles)

/-- Why a run has no result. -/
inductive RunError where
  | improbable
  | missingOutcome
  | outOfRange
  deriving DecidableEq, Repr

/-- A state in the course of the final measurements: the bits that have been
found, and the probability of each outcome. -/
structure Readout (K R : Type) where
  state : State K
  found : Nat
  probabilities : List R

/-- Applies a gate, or measures with the given outcome. -/
def Readout.next (outcomes : List Bool) (r : Readout K R) : Gate → Except RunError (Readout K R)
  | .meas k id =>
    match outcomes[id]? with
    | none => .error .missingOutcome
    | some outcome =>
      let (p, s) := r.state.measure k outcome
      if Amplitude.less K p (Amplitude.tiny K) then .error .improbable
      else .ok ⟨s, if outcome then r.found ||| 1 <<< k else r.found, r.probabilities ++ [p]⟩
  | g =>
    match r.state.applyGate? g with
    | none => .error .outOfRange
    | some s => .ok { r with state := s }

def runTerms (outcomes : List Bool) (s : State K) : List (Term × R) → Except RunError (State K)
  | [] => .ok s
  | (t, angle) :: rest =>
    match t.negated? outcomes with
    | none => .error .missingOutcome
    | some negated =>
      runTerms outcomes (s.rotate (mask t.support) (signed negated angle)) rest

/-- Applies the operators whose outcome is 1. -/
def applyCorrections? (s : State K) : List (Pauli × Bool) → Option (State K)
  | [] => some s
  | (p, outcome) :: rest => do
    let s ← if outcome then s.applyPauli? p else some s
    s.applyCorrections? rest

/-- The prepared register, after the Clifford part of the circuit. -/
def prepare? (s : State K) (c : Circuit) : Option (State K) := do
  let s ← s.widen? c.width
  let s ← s.applyGates? c.beginning
  s.applyGates? c.clifford

/-- The logical state after the measurements and corrections. -/
def finish? (r : Readout K R) (c : Circuit) (outcomes : List Bool) : Option (State K) := do
  let s ← r.state.applyCorrections? (c.corrections.zip outcomes)
  s.restrict? c.layout.slots r.found

/-- The result of a run: the logical state, and the probability with which each
measurement had its outcome. -/
structure Run (K R : Type) where
  state : State K
  probabilities : List R

/-- Runs a circuit under the given outcomes. Rotations for which there is no
angle are left out. -/
def runCircuit (s : State K) (c : Circuit) (angles : List R) (outcomes : List Bool) :
    Except RunError (Run K R) := do
  let s ← (s.prepare? c).elim (.error .outOfRange) .ok
  let s ← s.runTerms outcomes (c.poly.terms.zip angles)
  let r ← c.ending.foldlM (Readout.next outcomes) ⟨s, 0, []⟩
  let s ← (finish? r c outcomes).elim (.error .outOfRange) .ok
  return ⟨s, r.probabilities⟩

end HadamardFree.State
