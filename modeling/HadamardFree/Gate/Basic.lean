import HadamardFree.Text.Listing

/-!
# Gates

The Clifford gates H, S, CX and CZ and the measurement in the Z basis. A gate
names qubits by number; whether these are logical qubits or slots of the
register depends on the circuit that holds the gate.
-/

namespace HadamardFree

/-- A gate and the qubits it acts on. A measurement also carries the number
under which its outcome is known. -/
inductive Gate where
  | h (qubit : Nat)
  | s (qubit : Nat)
  | cx (control target : Nat)
  | cz (first second : Nat)
  | meas (qubit id : Nat)
  deriving DecidableEq, Repr

namespace Gate

def text : Gate → String
  | h k => s!"H({k})"
  | s k => s!"S({k})"
  | cx c t => s!"CX({c}, {t})"
  | cz a b => s!"CZ({a}, {b})"
  | meas k id => s!"Meas({k} -> m{id})"

def isH : Gate → Bool
  | h _ => true
  | _ => false

def isCX : Gate → Bool
  | cx _ _ => true
  | _ => false

/-- The gates a network piece may hold and a Pauli operator can be conjugated
by. -/
def isElementary : Gate → Bool
  | h _ | s _ | cx _ _ => true
  | cz _ _ | meas _ _ => false

/-- The qubits acted on, in the order in which they are written. -/
def qubits : Gate → List Nat
  | h k | s k | meas k _ => [k]
  | cx a b | cz a b => [a, b]

def fits (n : Nat) (g : Gate) : Bool :=
  g.qubits.all fun k => decide (k < n)

/-- Renames the qubits. The number of a measurement is not a qubit and stays. -/
def rename (f : Nat → Nat) : Gate → Gate
  | h k => h (f k)
  | s k => s (f k)
  | cx c t => cx (f c) (f t)
  | cz a b => cz (f a) (f b)
  | meas k id => meas (f k) id

def listText (gates : List Gate) : String :=
  Text.listing (gates.map text)

theorem eq_h_of_isH {g : Gate} (turn : g.isH = true) : ∃ k, g = h k := by
  cases g with
  | h k => exact ⟨k, rfl⟩
  | s | cx | cz | meas => cases turn

theorem qubits_rename (f : Nat → Nat) (g : Gate) :
    (g.rename f).qubits = g.qubits.map f := by
  cases g <;> rfl

theorem rename_id (g : Gate) : g.rename id = g := by
  cases g <;> rfl

theorem fits_iff {n : Nat} {g : Gate} : g.fits n = true ↔ ∀ k ∈ g.qubits, k < n := by
  simp [fits]

end Gate

end HadamardFree
