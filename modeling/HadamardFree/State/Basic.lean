import HadamardFree.State.Amplitude

/-!
# States

A state of `n` qubits is a vector of `1 <<< n` amplitudes, one for each basis
state. Qubit `k` is bit `k` of the index of a basis state.
-/

namespace HadamardFree

structure State (K : Type) where
  qubits : Nat
  amps : Array K
  size_amps : amps.size = 1 <<< qubits

namespace State

variable {K R : Type}

def ofFn (n : Nat) (f : Nat → K) : State K :=
  ⟨n, Array.ofFn fun i : Fin (1 <<< n) => f i, by simp⟩

/-- The amplitude of basis state `i`, zero beyond the last. -/
def amp [Zero K] (s : State K) (i : Nat) : K :=
  s.amps.getD i 0

/-- Multiplies the amplitude of each basis state by a factor of its own. -/
def diagonal [Zero K] [Mul K] (s : State K) (f : Nat → K) : State K :=
  ofFn s.qubits fun i => s.amp i * f i

/-- The sum of all probabilities. -/
def weight [Zero R] [Add R] [Amplitude K R] (s : State K) : R :=
  (s.amps.toList.map Amplitude.normSq).sum

def divSqrt [Zero K] [Amplitude K R] (s : State K) (p : R) : State K :=
  ofFn s.qubits fun i => Amplitude.divSqrt (s.amp i) p

/-- The inner product, conjugate in the first argument. -/
def inner [Zero K] [Add K] [Mul K] [Amplitude K R] (s t : State K) : K :=
  (List.zipWith (fun a b => Amplitude.conj a * b) s.amps.toList t.amps.toList).sum

/-- The modulus of the inner product of two states of the same size. -/
def overlap? [Zero K] [Add K] [Mul K] [Amplitude K R] (s t : State K) : Option R :=
  if s.qubits = t.qubits then some (Amplitude.modulus (s.inner t)) else none

/-- Adds qubits in the state zero, up to `width` qubits. -/
def widen? [Zero K] [Amplitude K R] (s : State K) (width : Nat) : Option (State K) :=
  if s.qubits ≤ width ∧ Amplitude.storable K width then some (ofFn width s.amp) else none

/-- The basis state with the bits of `fixed`, and bit `b` of `j` in the `b`-th
of the slots. -/
def spread (fixed : Nat) : List Nat → Nat → Nat
  | [], _ => fixed
  | slot :: slots, j =>
    spread (if j.testBit 0 then fixed ||| 1 <<< slot else fixed) slots (j / 2)

/-- The state of the qubits in `slots`, where all others are in the basis state
`fixed`. -/
def restrict? [Zero K] [Amplitude K R] (s : State K) (slots : List Nat) (fixed : Nat) :
    Option (State K) :=
  if Amplitude.storable K slots.length ∧ (∀ slot ∈ slots, slot < s.qubits) ∧
      fixed < 1 <<< s.qubits then
    some (ofFn slots.length fun j => s.amp (spread fixed slots j))
  else none

@[simp] theorem qubits_ofFn (n : Nat) (f : Nat → K) : (ofFn n f).qubits = n := rfl

theorem amp_ofFn [Zero K] (n : Nat) (f : Nat → K) (i : Nat) :
    (ofFn n f).amp i = if i < 1 <<< n then f i else 0 := by
  by_cases h : i < 1 <<< n <;> simp [amp, ofFn, h, Array.getD]

theorem amp_of_le [Zero K] {s : State K} {i : Nat} (h : 1 <<< s.qubits ≤ i) : s.amp i = 0 := by
  have beyond : ¬ i < s.amps.size := by
    rw [s.size_amps]
    exact Nat.not_lt.mpr h
  simp [amp, Array.getD, beyond]

theorem amp_diagonal [Zero K] [Mul K] (s : State K) (f : Nat → K) {i : Nat}
    (h : i < 1 <<< s.qubits) : (s.diagonal f).amp i = s.amp i * f i := by
  rw [diagonal, amp_ofFn, if_pos h]

/-- States are equal if they have the same qubits and amplitudes. -/
theorem ext_amp [Zero K] {s t : State K} (qubits : s.qubits = t.qubits)
    (amps : ∀ i, i < 1 <<< s.qubits → s.amp i = t.amp i) : s = t := by
  cases s with | mk n a ha =>
  cases t with | mk m b hb =>
  cases qubits
  have same : a = b := by
    apply Array.ext
    · rw [ha, hb]
    · intro i hi hj
      have := amps i (ha ▸ hi)
      simpa [amp, Array.getD, hi, hj] using this
  cases same
  rfl

end State

end HadamardFree
