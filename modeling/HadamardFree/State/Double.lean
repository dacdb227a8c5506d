import HadamardFree.Capacity
import HadamardFree.State.Basic

/-!
# States in double precision

Complex numbers with parts in double precision, and states with arbitrary
amplitudes drawn from a list of 64-bit words.
-/

namespace HadamardFree

structure DoubleComplex where
  re : Float
  im : Float

namespace DoubleComplex

instance : Zero DoubleComplex := ⟨⟨0, 0⟩⟩
instance : One DoubleComplex := ⟨⟨1, 0⟩⟩
instance : Add DoubleComplex := ⟨fun a b => ⟨a.re + b.re, a.im + b.im⟩⟩
instance : Sub DoubleComplex := ⟨fun a b => ⟨a.re - b.re, a.im - b.im⟩⟩
instance : Neg DoubleComplex := ⟨fun a => ⟨-a.re, -a.im⟩⟩

instance : Mul DoubleComplex :=
  ⟨fun a b => ⟨a.re * b.re - a.im * b.im, a.re * b.im + a.im * b.re⟩⟩

def normSq (a : DoubleComplex) : Float :=
  a.re * a.re + a.im * a.im

/-- Each of the `1 <<< n` amplitudes takes sixteen bytes. -/
def storable (n : Nat) : Bool :=
  n < 63 && decide (16 * (1 <<< n) < byteLimit)

instance : Amplitude DoubleComplex Float where
  unit := ⟨0, 1⟩
  sqrtHalf := ⟨0.7071067811865476, 0⟩
  cis := fun angle => ⟨angle.cos, angle.sin⟩
  conj := fun a => ⟨a.re, -a.im⟩
  modulus := fun a => a.normSq.sqrt
  normSq := normSq
  divSqrt := fun a p => ⟨a.re / p.sqrt, a.im / p.sqrt⟩
  half := fun x => x / 2
  tiny := 1e-12
  less := fun x y => x < y
  storable := storable

/-- A number from -1 to below 1, from the upper 52 bits of a word. -/
def part (word : Nat) : Float :=
  Float.ofNat (word >>> 12) / 4503599627370496 * 2 - 1

end DoubleComplex

/-- The state of `n` qubits whose amplitude `i` has its parts from words `2 i`
and `2 i + 1`, scaled to weight one. Words are taken again from the start when
they are used up. -/
def State.ofWords? (n : Nat) (words : Array Nat) : Option (State DoubleComplex) :=
  if words.isEmpty || !DoubleComplex.storable n then none
  else
    let part (k : Nat) : Float := DoubleComplex.part (words.getD (k % words.size) 0)
    let s := State.ofFn n fun i => DoubleComplex.mk (part (2 * i)) (part (2 * i + 1))
    some (s.divSqrt s.weight)

end HadamardFree
