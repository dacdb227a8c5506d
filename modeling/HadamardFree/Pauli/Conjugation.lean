import HadamardFree.Gate.Basic
import HadamardFree.Pauli.Basic

/-!
# Conjugation by Clifford gates

H exchanges X and Z on its qubit, S exchanges X and Y, and CX copies the X part
of its control to its target and the Z part of its target to its control. A CX
gate whose qubits agree copies the Z part first, so it leaves the identity.
-/

namespace HadamardFree

inductive ConjugationError where
  | unsupportedGate (gate : Gate)
  | qubitOutOfRange (qubit size : Nat)
  deriving DecidableEq, Repr

def ConjugationError.message : ConjugationError → String
  | unsupportedGate g => "cannot conjugate a Pauli operator with gate " ++ g.text
  | qubitOutOfRange k n => s!"qubit {k} is out of range for a {n}-qubit operator"

def Letter.hadamard (a : Letter) : Letter :=
  ofBits a.z a.x

def Letter.phase (a : Letter) : Letter :=
  a.times a.xPart.hadamard

namespace Pauli

def modify (p : Pauli) (k : Nat) (f : Letter → Letter) : Pauli :=
  ⟨p.letters.modify k f⟩

def multiply (p : Pauli) (k : Nat) (a : Letter) : Pauli :=
  p.modify k (·.times a)

/-- Copies parts between control `c` and target `t`, the Z part first. -/
def conjugateCX (p : Pauli) (c t : Nat) : Pauli :=
  let q := p.multiply c (p.letter t).zPart
  q.multiply t (q.letter c).xPart

/-- All operands are checked before anything changes; CZ and measurements are
refused whatever their qubits. -/
def conjugateGate (p : Pauli) : Gate → Except ConjugationError Pauli
  | .h k =>
    if k < p.size then .ok (p.modify k Letter.hadamard)
    else .error (.qubitOutOfRange k p.size)
  | .s k =>
    if k < p.size then .ok (p.modify k Letter.phase)
    else .error (.qubitOutOfRange k p.size)
  | .cx c t =>
    if c < p.size then
      if t < p.size then .ok (p.conjugateCX c t)
      else .error (.qubitOutOfRange t p.size)
    else .error (.qubitOutOfRange c p.size)
  | .cz a b => .error (.unsupportedGate (.cz a b))
  | .meas k id => .error (.unsupportedGate (.meas k id))

/-- Conjugates by the gates in order as far as possible: the operator reached,
and what stopped it. -/
def advance (p : Pauli) : List Gate → Pauli × Option ConjugationError
  | [] => (p, none)
  | g :: gates =>
    match p.conjugateGate g with
    | .ok q => q.advance gates
    | .error e => (p, some e)

def conjugate (p : Pauli) (gates : List Gate) : Except ConjugationError Pauli :=
  match p.advance gates with
  | (q, none) => .ok q
  | (_, some e) => .error e

/-- Moves the letter on qubit `source` to qubit `target`, over what was there,
and leaves the identity behind. -/
def moveLetter (p : Pauli) (source target : Nat) : Except ConjugationError Pauli :=
  if source < p.size then
    if target < p.size then
      .ok ⟨(p.letters.set source .I).set target (p.letter source)⟩
    else .error (.qubitOutOfRange target p.size)
  else .error (.qubitOutOfRange source p.size)

@[simp] theorem size_modify (p : Pauli) (k : Nat) (f : Letter → Letter) :
    (p.modify k f).size = p.size := by
  simp [modify, size]

theorem letter_modify (p : Pauli) (k : Nat) (f : Letter → Letter) (j : Nat) :
    (p.modify k f).letter j = if j = k ∧ k < p.size then f (p.letter j) else p.letter j := by
  by_cases hj : j < p.letters.length
  · by_cases hk : j = k
    · subst hk
      simp [letter, modify, size, List.getD, hj]
    · simp [letter, modify, List.getD, hj, hk, Ne.symm hk]
  · have beyond : ¬ (j = k ∧ k < p.size) := by
      rintro ⟨rfl, h⟩
      exact hj h
    have outside : p.size ≤ j := Nat.le_of_not_lt hj
    rw [if_neg beyond, letter_of_size_le outside, letter_of_size_le (by simpa using outside)]

@[simp] theorem size_conjugateCX (p : Pauli) (c t : Nat) :
    (p.conjugateCX c t).size = p.size := by
  simp [conjugateCX, multiply]

theorem size_of_conjugateGate {p q : Pauli} {g : Gate} (h : p.conjugateGate g = .ok q) :
    q.size = p.size := by
  cases g <;> simp only [conjugateGate] at h
  case h | s | cx =>
    repeat' split at h
    all_goals first | (cases h; simp) | cases h
  all_goals cases h

/-- A gate conjugates an operator exactly if it is elementary and in range. -/
theorem conjugateGate_isOk (p : Pauli) (g : Gate) :
    (∃ q, p.conjugateGate g = .ok q) ↔ g.isElementary = true ∧ g.fits p.size = true := by
  cases g with
  | h k =>
    by_cases hk : k < p.size <;>
      simp [conjugateGate, Gate.isElementary, Gate.fits, Gate.qubits, hk]
  | s k =>
    by_cases hk : k < p.size <;>
      simp [conjugateGate, Gate.isElementary, Gate.fits, Gate.qubits, hk]
  | cx c t =>
    by_cases hc : c < p.size <;> by_cases ht : t < p.size <;>
      simp [conjugateGate, Gate.isElementary, Gate.fits, Gate.qubits, hc, ht]
  | cz a b => simp [conjugateGate, Gate.isElementary]
  | meas k id => simp [conjugateGate, Gate.isElementary]

@[simp] theorem conjugate_nil (p : Pauli) : p.conjugate [] = .ok p := rfl

theorem conjugate_cons (p : Pauli) (g : Gate) (gates : List Gate) :
    p.conjugate (g :: gates) = (p.conjugateGate g).bind (·.conjugate gates) := by
  simp only [conjugate, advance]
  cases p.conjugateGate g <;> rfl

theorem conjugate_append (p : Pauli) (gates more : List Gate) :
    p.conjugate (gates ++ more) = (p.conjugate gates).bind (·.conjugate more) := by
  induction gates generalizing p with
  | nil => rfl
  | cons g gates ih =>
    rw [List.cons_append, conjugate_cons, conjugate_cons]
    cases p.conjugateGate g with
    | error e => rfl
    | ok q => exact ih q

end Pauli

end HadamardFree
