import HadamardFree.Gate.Basic
import HadamardFree.Pauli.Basic
import HadamardFree.State.Basic

/-!
# Gates, rotations and measurements on states

Each operation gives every new amplitude in terms of old ones. Diagonal gates
act on the qubits that exist, so on a qubit outside the state they do nothing;
an operation that would have to move amplitudes outside has no result.
-/

namespace HadamardFree.State

variable {K R : Type}

section Gates
variable [Zero K] [One K] [Add K] [Sub K] [Neg K] [Mul K] [Amplitude K R]

def hadamard (s : State K) (k : Nat) : State K :=
  ofFn s.qubits fun i =>
    let j := i ^^^ 1 <<< k
    (if i.testBit k then s.amp j - s.amp i else s.amp i + s.amp j) * Amplitude.sqrtHalf

def flip (s : State K) (k : Nat) : State K :=
  ofFn s.qubits fun i => s.amp (i ^^^ 1 <<< k)

def flipIf (s : State K) (control target : Nat) : State K :=
  ofFn s.qubits fun i => if i.testBit control then s.amp (i ^^^ 1 <<< target) else s.amp i

/-- Multiplies the amplitudes where bit `k` is set. -/
def phaseAt (s : State K) (k : Nat) (factor : K) : State K :=
  s.diagonal fun i => if i.testBit k then factor else 1

/-- A CX gate exchanges the amplitudes of basis states that have its control set
and differ in its target only. There are none if control and target are one
qubit, or if the control lies outside. A measurement is not a gate on states. -/
def applyGate? (s : State K) : Gate → Option (State K)
  | .h k => if k < s.qubits then some (s.hadamard k) else none
  | .s k => some (s.phaseAt k Amplitude.unit)
  | .cx c t =>
    if c = t ∨ s.qubits ≤ c then some s
    else if t < s.qubits then some (s.flipIf c t)
    else none
  | .cz a b => some (s.diagonal fun i => if i.testBit a && i.testBit b then -1 else 1)
  | .meas _ _ => none

def applyGates? (s : State K) (gates : List Gate) : Option (State K) :=
  gates.foldlM applyGate? s

def applyLetter? (s : State K) (k : Nat) (a : Letter) : Option (State K) :=
  let turned := if a.z then s.phaseAt k (-1) else s
  if a.x then
    if k < s.qubits then some (turned.flip k) else none
  else some turned

/-- Applies the letters from qubit `k` on. -/
def applyLetters? (k : Nat) (s : State K) : List Letter → Option (State K)
  | [] => some s
  | a :: rest =>
    match s.applyLetter? k a with
    | none => none
    | some s => applyLetters? (k + 1) s rest

/-- Applies a Pauli operator up to phase: on each qubit first Z, then X. -/
def applyPauli? (s : State K) (p : Pauli) : Option (State K) :=
  applyLetters? 0 s p.letters

end Gates

theorem amp_hadamard [Zero K] [Add K] [Sub K] [Mul K] [Amplitude K R] (s : State K) (k : Nat)
    {i : Nat} (h : i < 1 <<< s.qubits) :
    (s.hadamard k).amp i =
      (if i.testBit k then s.amp (i ^^^ 1 <<< k) - s.amp i else s.amp i + s.amp (i ^^^ 1 <<< k)) *
        Amplitude.sqrtHalf := by
  rw [hadamard, amp_ofFn, if_pos h]

theorem amp_flip [Zero K] (s : State K) (k : Nat) {i : Nat} (h : i < 1 <<< s.qubits) :
    (s.flip k).amp i = s.amp (i ^^^ 1 <<< k) := by
  rw [flip, amp_ofFn, if_pos h]

theorem amp_flipIf [Zero K] (s : State K) (c t : Nat) {i : Nat} (h : i < 1 <<< s.qubits) :
    (s.flipIf c t).amp i = if i.testBit c then s.amp (i ^^^ 1 <<< t) else s.amp i := by
  rw [flipIf, amp_ofFn, if_pos h]

/-! ## Rotations -/

/-- The number whose bit `k` is entry `k`. -/
def mask : List Bool → Nat
  | [] => 0
  | b :: bits => b.toNat + 2 * mask bits

theorem testBit_mask (bits : List Bool) (k : Nat) :
    (mask bits).testBit k = bits.getD k false := by
  induction bits generalizing k with
  | nil => simp [mask]
  | cons b bits ih =>
    cases k with
    | zero => cases b <;> simp [mask, Nat.testBit_zero, Nat.add_mod]
    | succ k =>
      have half : (b.toNat + 2 * mask bits) / 2 = mask bits := by
        have := b.toNat_lt
        omega
      simp [mask, Nat.testBit_succ, half, ih]

/-- Whether two numbers have an odd number of ones in common below bit `n`. -/
def oddOverlap (n i j : Nat) : Bool :=
  (List.range n).countP (fun k => i.testBit k && j.testBit k) % 2 == 1

/-- Rotates by `angle` about the product of Z on the qubits of `mask`: a basis
state where an odd number of them is set turns by half the angle, any other
by half the negated angle. -/
def rotate [Zero K] [Mul K] [Neg R] [Amplitude K R] (s : State K) (mask : Nat) (angle : R) :
    State K :=
  s.diagonal fun i =>
    Amplitude.cis (Amplitude.half K (if oddOverlap s.qubits i mask then angle else -angle))

/-! ## Measurements -/

/-- The probability of `outcome` on qubit `k`, and the state after it. The state
is scaled back to weight one unless the probability counts as zero. -/
def measure [Zero K] [One K] [Mul K] [Zero R] [Add R] [Amplitude K R]
    (s : State K) (k : Nat) (outcome : Bool) : R × State K :=
  let kept := s.diagonal fun i => if i.testBit k == outcome then 1 else 0
  let p := kept.weight
  (p, if Amplitude.less K (Amplitude.tiny K) p then kept.divSqrt p else kept)

end HadamardFree.State
