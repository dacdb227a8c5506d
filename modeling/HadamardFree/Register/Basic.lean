import HadamardFree.Gate.Basic
import HadamardFree.Register.Placement

/-!
# The register

Slots are handed out in order and never taken back. A qubit that meets an H
gate leaves its slot, which is retired, for the next fresh one; every other
gate acts where its qubits live.
-/

namespace HadamardFree

/-- `allocated` of the `width` slots have been handed out, and `measurements`
outcome numbers have been given away. -/
structure Register where
  placement : Placement
  width : Nat
  allocated : Nat
  measurements : Nat
  deriving DecidableEq, Repr

/-- Why a qubit cannot be moved or a gate cannot be placed. -/
inductive Refusal where
  | full
  | noSuchQubit
  deriving DecidableEq, Repr

/-- A qubit's change of slot. -/
structure Move where
  qubit : Nat
  retired : Nat
  fresh : Nat
  deriving DecidableEq, Repr

/-- What a logical gate becomes on the register. -/
inductive Placed where
  | gate (g : Gate)
  | moved (m : Move)
  deriving DecidableEq, Repr

namespace Register

/-- `n` qubits at home, with the slots above them free. -/
def start (n width : Nat) : Register :=
  ⟨.home n, width, n, 0⟩

def start? (n width : Nat) : Option Register :=
  if n ≤ width ∧ fitsNumbers n then some (start n width) else none

/-- The number of logical qubits. -/
def size (r : Register) : Nat :=
  r.placement.size

/-- Moves qubit `k` to a fresh slot. A full register refuses before it looks at
the qubit. -/
def moveQubit (r : Register) (k : Nat) : Except Refusal (Move × Register) :=
  if r.allocated < r.width then
    match r.placement.get? k with
    | none => .error .noSuchQubit
    | some retired =>
      .ok (⟨k, retired, r.allocated⟩,
        { r with placement := r.placement.assign k r.allocated, allocated := r.allocated + 1 })
  else .error .full

/-- The next outcome number. -/
def newOutcome (r : Register) : Nat × Register :=
  (r.measurements, { r with measurements := r.measurements + 1 })

def lift? (r : Register) (p : Pauli) : Option Pauli :=
  r.placement.lift? p r.width

def lift (r : Register) (p : Pauli) : Except LiftError Pauli :=
  r.placement.lift p r.width

/-- Places a logical gate: an H gate moves its qubit, any other is renamed to
the slots of its qubits. The qubits are looked at first. -/
def place (r : Register) (g : Gate) : Except Refusal (Placed × Register) :=
  if g.fits r.size then
    match g with
    | .h k => (r.moveQubit k).map fun (m, r) => (.moved m, r)
    | g => .ok (.gate (g.rename r.placement.slot), r)
  else .error .noSuchQubit

@[simp] theorem size_start (n width : Nat) : (start n width).size = n := by
  simp [start, size]

end Register

end HadamardFree
