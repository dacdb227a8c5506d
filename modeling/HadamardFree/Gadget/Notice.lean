import HadamardFree.Gadget.Circuit

/-!
# Notices

What a replacement reports about its work. Notices are read off the finished
circuit, so they cannot disagree with it.
-/

namespace HadamardFree

inductive Notice where
  | started (steps qubits hadamards width : Nat)
  | replaced (gadget : Gadget)
  | folded (gate : Gate) (terms : Nat)
  deriving DecidableEq, Repr

namespace Notice

def level : Notice → String
  | started _ _ _ _ | replaced _ => "DEBUG"
  | folded _ _ => "TRACE"

def text : Notice → String
  | started steps qubits hadamards width =>
    s!"gadgetizing {steps} step(s) on {qubits} qubit(s): " ++
      s!"{hadamards} H gate(s), {width} physical qubit(s)"
  | replaced g =>
    s!"m{g.id}: H({g.qubit}) at step {g.step}, slot {g.retired} -> {g.fresh}, flips " ++
      Text.numbers g.flips ++ ", correction " ++ g.correction.text
  | folded g terms => "fold " ++ g.text ++ s!" into {terms} rotation(s)"

def line (n : Notice) : String :=
  n.level ++ " " ++ n.text

/-- The CX gates folded from a stream, in order. -/
def ofFolds (stream : List StreamOp) : List Notice :=
  (folds stream).map fun (g, terms) => folded g terms

end Notice

/-- One notice for the whole, then one for each H gate. -/
def Unfolded.notices (u : Unfolded) : List Notice :=
  .started (StreamOp.rotations u.stream).length u.layout.size u.gadgets.length u.width ::
    u.gadgets.map .replaced

def Circuit.notices (c : Circuit) : List Notice :=
  c.toUnfolded.notices ++ Notice.ofFolds c.stream

end HadamardFree
