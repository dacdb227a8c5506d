/-!
# Amplitudes

What a state vector needs of its numbers. The same definitions then run on
rounded numbers and hold exactly on complex ones.
-/

namespace HadamardFree

/-- Complex numbers `K` over real numbers `R`, beyond their ring operations. -/
class Amplitude (K : Type) (R : outParam Type) where
  /-- The imaginary unit. -/
  unit : K
  /-- One over the square root of two. -/
  sqrtHalf : K
  /-- The number of modulus one at the given angle. -/
  cis : R → K
  conj : K → K
  modulus : K → R
  /-- The square of the modulus. -/
  normSq : K → R
  /-- A number divided by the square root of a probability. -/
  divSqrt : K → R → K
  half : R → R
  /-- Probabilities below this one count as zero. -/
  tiny : R
  less : R → R → Bool
  /-- Whether a state of the given number of qubits can be laid out. -/
  storable : Nat → Bool

end HadamardFree
