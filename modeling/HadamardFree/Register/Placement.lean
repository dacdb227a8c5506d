import HadamardFree.Pauli.Basic

/-!
# Placements

A placement says in which slot of the register each logical qubit lives.
-/

namespace HadamardFree

/-- Entry `k` is the slot of logical qubit `k`. -/
structure Placement where
  slots : List Nat
  deriving DecidableEq, Repr

/-- Why an operator cannot be lifted to a register. -/
inductive LiftError where
  | wrongSize
  | tooWide
  | slotOutside
  deriving DecidableEq, Repr

namespace Placement

/-- Every qubit in the slot of its own number. -/
def home (n : Nat) : Placement :=
  ⟨List.range n⟩

def home? (n : Nat) : Option Placement :=
  if fitsNumbers n then some (home n) else none

def size (m : Placement) : Nat :=
  m.slots.length

def get? (m : Placement) (k : Nat) : Option Nat :=
  m.slots[k]?

/-- The slot of `k`; a qubit that has not been placed keeps its number. -/
def slot (m : Placement) (k : Nat) : Nat :=
  m.slots.getD k k

def assign (m : Placement) (k slot : Nat) : Placement :=
  ⟨m.slots.set k slot⟩

/-- Moves qubit `k` to `slot` and returns the slot it held. -/
def assign? (m : Placement) (k slot : Nat) : Option (Nat × Placement) :=
  (m.get? k).map fun held => (held, m.assign k slot)

/-- Writes each letter to its slot, in order, over what is already there. -/
def write (out : List Letter) : List (Nat × Letter) → List Letter
  | [] => out
  | (slot, a) :: rest => write (out.set slot a) rest

/-- The operator on `width` slots that has letter `k` of `p` in the slot of
qubit `k` and the identity in every other slot. There is none if `p` has
another number of qubits or a slot lies outside. If qubits share a slot, the
last one's letter stands there. -/
def lift? (m : Placement) (p : Pauli) (width : Nat) : Option Pauli :=
  if p.size = m.size ∧ ∀ slot ∈ m.slots, slot < width then
    some ⟨write (List.replicate width .I) (m.slots.zip p.letters)⟩
  else none

/-- As `lift?`, with the cause of a failure. The size of `p` is looked at before
a register of `width` slots is laid out, and the slots after that. -/
def lift (m : Placement) (p : Pauli) (width : Nat) : Except LiftError Pauli :=
  if p.size = m.size then
    if fitsLetters width then
      match m.lift? p width with
      | some lifted => .ok lifted
      | none => .error .slotOutside
    else .error .tooWide
  else .error .wrongSize

@[simp] theorem size_home (n : Nat) : (home n).size = n := by
  simp [home, size]

@[simp] theorem size_assign (m : Placement) (k slot : Nat) :
    (m.assign k slot).size = m.size := by
  simp [assign, size]

theorem slot_assign (m : Placement) (k slot j : Nat) (h : k < m.size) :
    (m.assign k slot).slot j = if j = k then slot else m.slot j := by
  by_cases hj : j = k
  · subst hj
    simp only [Placement.slot, assign, List.getD, if_true]
    rw [List.getElem?_set_self h]
    rfl
  · simp [Placement.slot, assign, List.getD, Ne.symm hj, hj]

@[simp] theorem length_write (out : List Letter) (entries : List (Nat × Letter)) :
    (write out entries).length = out.length := by
  induction entries generalizing out with
  | nil => rfl
  | cons e rest ih => simp [write, ih]

theorem size_of_lift? {m : Placement} {p q : Pauli} {width : Nat}
    (h : m.lift? p width = some q) : q.size = width := by
  unfold lift? at h
  split at h
  · simp only [Option.some.injEq] at h
    simp [← h, Pauli.size]
  · simp at h

end Placement

end HadamardFree
