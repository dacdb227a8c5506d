import HadamardFree.Proofs.Wave
import Mathlib.Algebra.BigOperators.Fin
import Mathlib.Analysis.Complex.Trigonometric

/-!
# The weight of a wave

Sums over all bits of some qubits, taken one qubit at a time in any order, and the
sum of all probabilities of a wave:

* `total`, `total_perm`, `total_pair`: such sums;
* `Wave.weight_gate`, `Wave.weight_rotate`: gates and rotations keep the weight;
* `Wave.weight_keep`: the two results of a measurement share the weight.
-/

namespace HadamardFree

open Function (update)

/-! ## Sums over bits -/

section
variable {M : Type} [AddCommMonoid M]

/-- The sum over all bits of the listed qubits, where all others have the bits of
`v`. -/
def total (f : (Nat → Bool) → M) : List Nat → (Nat → Bool) → M
  | [], v => f v
  | k :: ks, v => total f ks (update v k false) + total f ks (update v k true)

theorem total_append (f : (Nat → Bool) → M) (ks js : List Nat) (v : Nat → Bool) :
    total f (ks ++ js) v = total (total f js) ks v := by
  induction ks generalizing v with
  | nil => rfl
  | cons k ks ih => simp only [List.cons_append, total, ih]

theorem total_congr {f g : (Nat → Bool) → M} (h : ∀ v, f v = g v) (ks : List Nat)
    (v : Nat → Bool) : total f ks v = total g ks v := by
  rw [funext h]

theorem total_add (f g : (Nat → Bool) → M) (ks : List Nat) (v : Nat → Bool) :
    total (fun v => f v + g v) ks v = total f ks v + total g ks v := by
  induction ks generalizing v with
  | nil => rfl
  | cons k ks ih =>
    simp only [total, ih]
    exact add_add_add_comm ..

/-- The order of the qubits does not matter. -/
theorem total_perm {ks js : List Nat} (h : ks.Perm js) (f : (Nat → Bool) → M) (v : Nat → Bool) :
    total f ks v = total f js v := by
  induction h generalizing v with
  | nil => rfl
  | cons k h ih => simp only [total, ih]
  | swap i j ks =>
    by_cases same : i = j
    · rw [same]
    · simp only [total, Function.update_comm same]
      exact add_add_add_comm ..
  | trans h h' ih ih' => exact (ih v).trans (ih' v)

/-- Sums are equal if they are over the two bits of some qubit. -/
theorem total_pair {f g : (Nat → Bool) → M} {k : Nat} {ks : List Nat} (hk : k ∈ ks)
    (h : ∀ v, f (update v k false) + f (update v k true) =
      g (update v k false) + g (update v k true)) (v : Nat → Bool) :
    total f ks v = total g ks v := by
  have last : ks.Perm (ks.erase k ++ [k]) :=
    (List.perm_cons_erase hk).trans (List.perm_append_singleton ..).symm
  rw [total_perm last, total_perm last, total_append, total_append]
  exact total_congr h _ v

/-- The sum of a function that looks at the first `n` qubits only depends on those of
them that are not listed. -/
theorem total_agree {n : Nat} {f : (Nat → Bool) → M} {ks : List Nat} {v w : Nat → Bool}
    (h : ∀ v w : Nat → Bool, (∀ k, k < n → v k = w k) → f v = f w)
    (agree : ∀ k, k < n → k ∉ ks → v k = w k) : total f ks v = total f ks w := by
  induction ks generalizing v w with
  | nil => exact h v w fun k hk => agree k hk (List.not_mem_nil)
  | cons j ks ih =>
    have updated : ∀ b k, k < n → k ∉ ks → update v j b k = update w j b k := by
      intro b k hk hks
      by_cases same : k = j
      · subst same
        simp
      · rw [Function.update_of_ne same, Function.update_of_ne same]
        exact agree k hk (by simp [same, hks])
    rw [total, total, ih (updated false), ih (updated true)]

theorem testBit_two_pow_add {n i : Nat} (h : i < 2 ^ n) :
    (2 ^ n + i).testBit = update i.testBit n true := by
  funext j
  rcases Nat.lt_trichotomy j n with below | rfl | above
  · rw [Function.update_of_ne (Nat.ne_of_lt below), Nat.testBit_two_pow_add_gt below]
  · rw [Function.update_self, Nat.testBit_two_pow_add_eq, Nat.testBit_lt_two_pow h, Bool.not_false]
  · have power : 2 ^ (n + 1) ≤ 2 ^ j := Nat.pow_le_pow_right (by omega) above
    have double : 2 ^ (n + 1) = 2 ^ n + 2 ^ n := by rw [Nat.pow_succ]; omega
    rw [Function.update_of_ne (Nat.ne_of_gt above), Nat.testBit_lt_two_pow (by omega),
      Nat.testBit_lt_two_pow (by omega)]

/-- A sum over all basis states is one over the bits of the qubits. -/
theorem sum_testBit (n : Nat) (f : (Nat → Bool) → M) :
    ∑ i ∈ Finset.range (2 ^ n), f i.testBit = total f (List.range n) fun _ => false := by
  induction n generalizing f with
  | zero =>
    have zeros : Nat.testBit 0 = fun _ => false := by
      funext k
      simp
    simp [total, zeros]
  | succ n ih =>
    rw [List.range_succ, total_append, ← ih, Nat.pow_succ, Nat.mul_two, Finset.sum_range_add,
      ← Finset.sum_add_distrib]
    apply Finset.sum_congr rfl
    intro i hi
    have small : i < 2 ^ n := Finset.mem_range.mp hi
    have low : update i.testBit n false = i.testBit := by
      rw [← Nat.testBit_lt_two_pow small, Function.update_eq_self]
    simp only [total, testBit_two_pow_add small, low]

end

/-! ## Weights -/

namespace Wave

/-- The sum of all probabilities. -/
noncomputable def weight (n : Nat) (ψ : Wave) : ℝ :=
  total (fun v => Complex.normSq (ψ v)) (List.range n) fun _ => false

theorem weight_smul (n : Nat) (c : ℂ) (ψ : Wave) :
    weight n (c • ψ) = Complex.normSq c * weight n ψ := by
  have scaled : ∀ (ks : List Nat) (v : Nat → Bool),
      total (fun v => Complex.normSq ((c • ψ) v)) ks v =
        Complex.normSq c * total (fun v => Complex.normSq (ψ v)) ks v := by
    intro ks
    induction ks with
    | nil =>
      intro v
      simp only [total, Pi.smul_apply, smul_eq_mul, Complex.normSq_mul]
    | cons k ks ih =>
      intro v
      rw [total, total, ih, ih, mul_add]
  exact scaled _ _

theorem weight_diagonal {n : Nat} {f : (Nat → Bool) → ℂ} (h : ∀ v, Complex.normSq (f v) = 1)
    (ψ : Wave) : weight n (diagonal f ψ) = weight n ψ := by
  apply total_congr
  intro v
  rw [diagonal, Complex.normSq_mul, h v, mul_one]

theorem normSq_sqrtHalf : Complex.normSq (Amplitude.sqrtHalf : ℂ) = 1 / 2 := by
  have square : (Real.sqrt 2)⁻¹ * (Real.sqrt 2)⁻¹ = 1 / 2 := by
    rw [← mul_inv, Real.mul_self_sqrt (by norm_num)]
    norm_num
  rw [← square]
  exact Complex.normSq_ofReal _

theorem sqrtHalf_ne_zero : (Amplitude.sqrtHalf : ℂ) ≠ 0 := by
  intro zero
  have norm := normSq_sqrtHalf
  rw [zero, Complex.normSq_zero] at norm
  norm_num at norm

theorem weight_hadamard {n k : Nat} (hk : k < n) (ψ : Wave) :
    weight n (hadamard k ψ) = weight n ψ := by
  apply total_pair (List.mem_range.mpr hk)
  intro v
  simp only [hadamard, Function.update_self, Function.update_idem, Complex.normSq_mul,
    normSq_sqrtHalf]
  simp only [sign_false, sign_true, one_mul, neg_mul, Complex.normSq_apply, Complex.add_re,
    Complex.add_im, Complex.neg_re, Complex.neg_im]
  ring

theorem weight_flipIf {n k : Nat} (hk : k < n) (b : Bool) (ψ : Wave) :
    weight n (flipIf b k ψ) = weight n ψ := by
  apply total_pair (List.mem_range.mpr hk)
  intro v
  cases b <;> simp [flipIf, add_comm]

theorem weight_cx {n c t : Nat} (ht : t < n) (distinct : c ≠ t) (ψ : Wave) :
    weight n (cx c t ψ) = weight n ψ := by
  apply total_pair (List.mem_range.mpr ht)
  intro v
  cases hc : v c <;> simp [cx, distinct, hc, add_comm]

theorem weight_gate {n : Nat} {g : Gate} (fits : g.fits n = true) (ψ : Wave) :
    weight n (gate g ψ) = weight n ψ := by
  have inside := Gate.fits_iff.mp fits
  cases g with
  | h k => exact weight_hadamard (inside k (by simp [Gate.qubits])) ψ
  | s k =>
    apply weight_diagonal
    intro v
    cases v k with
    | false => simp
    | true => exact Complex.normSq_I
  | cx c t =>
    by_cases same : c = t
    · simp [gate, same]
    · simpa [gate, same] using weight_cx (inside t (by simp [Gate.qubits])) same ψ
  | cz a b =>
    apply weight_diagonal
    intro v
    cases v a && v b <;> simp
  | meas k id => rfl

theorem normSq_turn (odd : Bool) (angle : ℝ) : Complex.normSq (turn odd angle) = 1 := by
  have unit : ∀ x : ℝ, Complex.normSq (Complex.exp (x * Complex.I)) = 1 := by
    intro x
    rw [Complex.normSq_eq_norm_sq, Complex.norm_exp_ofReal_mul_I, one_pow]
  exact unit _

theorem weight_rotate {n m : Nat} (z : Nat → Bool) (angle : ℝ) (ψ : Wave) :
    weight n (rotate m z angle ψ) = weight n ψ := by
  apply weight_diagonal
  intro v
  exact normSq_turn _ angle

/-! ## Measurements -/

/-- The part of a wave where qubit `k` has the given bit. -/
def keep (k : Nat) (b : Bool) : Wave → Wave :=
  diagonal fun v => if v k == b then 1 else 0

theorem weight_keep (n k : Nat) (ψ : Wave) :
    weight n ψ = weight n (keep k false ψ) + weight n (keep k true ψ) := by
  rw [weight, weight, weight, ← total_add]
  apply total_congr
  intro v
  cases hk : v k <;> simp [keep, diagonal, hk]

end Wave

namespace State

theorem weight_ofWave (n : Nat) (ψ : Wave) : (ofWave n ψ).weight = ψ.weight n := by
  have listed : (ofWave n ψ).amps.toList =
      List.ofFn fun i : Fin (1 <<< n) => ψ (Nat.testBit i) := by
    simp [ofWave, ofFn]
  have summed : (ofWave n ψ).weight =
      ∑ i : Fin (1 <<< n), Complex.normSq (ψ (Nat.testBit i)) := by
    rw [weight, listed, List.map_ofFn, List.sum_ofFn]
    rfl
  rw [summed, Fin.sum_univ_eq_sum_range fun i => Complex.normSq (ψ (Nat.testBit i)),
    Nat.one_shiftLeft, sum_testBit n fun v => Complex.normSq (ψ v)]
  rfl

theorem less_iff {x y : ℝ} : Amplitude.less ℂ x y = true ↔ x < y := by
  classical
  exact decide_eq_true_iff

/-- A measurement whose outcome is likely enough keeps the part with the outcome,
scaled back to weight one. -/
theorem measure_ofWave {n k : Nat} {ψ : Wave} {outcome : Bool}
    (likely : Amplitude.tiny ℂ < (ψ.keep k outcome).weight n) :
    (ofWave n ψ).measure k outcome = ((ψ.keep k outcome).weight n, ofWave n
      ((Real.sqrt ((ψ.keep k outcome).weight n) : ℂ)⁻¹ • ψ.keep k outcome)) := by
  have kept : ((ofWave n ψ).diagonal fun i => if i.testBit k == outcome then 1 else 0) =
      ofWave n (ψ.keep k outcome) := diagonal_ofWave ψ fun i => rfl
  rw [measure, kept, weight_ofWave, if_pos (less_iff.mpr likely)]
  congr 1
  refine eq_ofWave (n := n) rfl ?_
  intro i hi
  rw [divSqrt, amp_ofFn, qubits_ofWave, if_pos hi, amp_ofWave _ hi]
  exact div_eq_inv_mul ..

end State

end HadamardFree
