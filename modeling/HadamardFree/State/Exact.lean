import HadamardFree.State.Basic
import Mathlib.Analysis.Complex.Exponential
import Mathlib.Analysis.Complex.Norm

/-!
# States with exact amplitudes

The complex numbers as amplitudes. Statements about states are about these.
-/

namespace HadamardFree

noncomputable instance : Amplitude ℂ ℝ where
  unit := Complex.I
  sqrtHalf := ((Real.sqrt 2)⁻¹ : ℝ)
  cis := fun angle => Complex.exp (angle * Complex.I)
  conj := starRingEnd ℂ
  modulus := fun a => ‖a‖
  normSq := Complex.normSq
  divSqrt := fun a p => a / (Real.sqrt p : ℝ)
  half := fun x => x / 2
  tiny := 1e-12
  less := fun x y => by classical exact decide (x < y)
  storable := fun _ => true

end HadamardFree
