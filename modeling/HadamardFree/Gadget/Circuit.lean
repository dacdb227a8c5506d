import HadamardFree.Gadget.Emission
import HadamardFree.PhasePolynomial.Folding

/-!
# Circuits without H gates in the middle

The whole replacement: slots are prepared, then comes a Clifford circuit of S,
CX and CZ gates, then a phase polynomial, and last the measurements of the
retired slots.
-/

namespace HadamardFree

/-- The circuit is `beginning`, `clifford`, `poly`, `ending`, in this order. -/
structure Circuit extends Unfolded where
  clifford : List Gate
  poly : PhasePolynomial
  deriving DecidableEq, Repr

def Unfolded.fold (u : Unfolded) : Except GadgetError Circuit :=
  match Folded.ofStream u.stream u.width with
  | .error e => .error (.folding e)
  | .ok f => .ok ⟨u, f.clifford, f.poly⟩

/-- Replaces every H gate by a gadget and folds all CX gates into the
rotations. -/
def Network.circuit (network : Network) : Except GadgetError Circuit := do
  let u ← network.unfolded
  u.fold

end HadamardFree
