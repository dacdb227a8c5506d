import HadamardFree.Gate.Basic
import HadamardFree.Text.Quoted

/-!
# Tagged gates

The exchange form of a gate: a tag and a list of operands. `CNOT` and `CX` are
two spellings of one gate, of which `CNOT` is the one written. Reading what was
written gives the gate back, unless it is a CX or CZ gate whose two qubits
agree.
-/

namespace HadamardFree

structure TaggedGate where
  tag : String
  operands : List Nat
  deriving DecidableEq, Repr

inductive TagError where
  | unknownTag (tag : String)
  | wrongArity (tag : String) (expected found : Nat)
  | repeatedQubit (tag : String) (qubit : Nat)
  deriving DecidableEq, Repr

def TagError.message : TagError → String
  | unknownTag tag => "unknown gate tag " ++ Text.quoteString tag
  | wrongArity tag expected found =>
    s!"gate {tag} takes {expected} operand(s), but got {found}"
  | repeatedQubit tag k => s!"gate {tag} acts twice on qubit {k}"

namespace TaggedGate

/-- One operand, a qubit. -/
def readOne (make : Nat → Gate) (g : TaggedGate) : Except TagError Gate :=
  match g.operands with
  | [k] => .ok (make k)
  | ks => .error (.wrongArity g.tag 1 ks.length)

/-- Two operands. -/
def readTwo (make : Nat → Nat → Gate) (g : TaggedGate) : Except TagError Gate :=
  match g.operands with
  | [a, b] => .ok (make a b)
  | ks => .error (.wrongArity g.tag 2 ks.length)

/-- Two operands that are different qubits. -/
def readPair (make : Nat → Nat → Gate) (g : TaggedGate) : Except TagError Gate :=
  match g.operands with
  | [a, b] => if a = b then .error (.repeatedQubit g.tag a) else .ok (make a b)
  | ks => .error (.wrongArity g.tag 2 ks.length)

/-- A measurement has a qubit and an outcome number, which may be equal. -/
def read (g : TaggedGate) : Except TagError Gate :=
  if g.tag = "H" then g.readOne .h
  else if g.tag = "S" then g.readOne .s
  else if g.tag = "CNOT" ∨ g.tag = "CX" then g.readPair .cx
  else if g.tag = "CZ" then g.readPair .cz
  else if g.tag = "MEASUREMENT" then g.readTwo .meas
  else .error (.unknownTag g.tag)

end TaggedGate

def Gate.tagged : Gate → TaggedGate
  | .h k => ⟨"H", [k]⟩
  | .s k => ⟨"S", [k]⟩
  | .cx c t => ⟨"CNOT", [c, t]⟩
  | .cz a b => ⟨"CZ", [a, b]⟩
  | .meas k id => ⟨"MEASUREMENT", [k, id]⟩

end HadamardFree
