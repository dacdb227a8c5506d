/-!
# Ranges of code points

A class of characters is given by inclusive ranges of code points.
-/

namespace HadamardFree.Text

def inRanges (ranges : List (Nat × Nat)) (c : Char) : Bool :=
  ranges.any fun (low, high) => low ≤ c.toNat && c.toNat ≤ high

end HadamardFree.Text
