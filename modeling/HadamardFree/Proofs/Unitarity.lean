import HadamardFree.Proofs.Sweeps
import HadamardFree.Proofs.Weight
import Mathlib.Tactic.LinearCombination

/-!
# Unitarity

Gates, rotations and Pauli operators keep the inner product of any two states. Each of them is
carried out in passes over the amplitudes, and the inner product is the same after every single
visit of a pass:

* `State.inner_eq_sum`, `State.inner_put`: the inner product, and what it becomes when one amplitude
  of each state is written;
* `Pass.Unitary`: factors of modulus one, and pairs whose part of the inner product is kept;
* `Pass.Unitary.inner_visit`, `Pass.Unitary.inner_run`: one visit, and a whole pass;
* `Operation.unitary_passes`: the passes of an operation are such ones;
* `operations_keep_inner_product`: all of it for operations one after the other.
-/

namespace HadamardFree

/-! ## Inner products -/

/-- Two pairs of amplitudes have the same inner product when both are replaced. -/
def Isometric (act : ℂ → ℂ → ℂ × ℂ) : Prop :=
  ∀ a b c d : ℂ, Amplitude.conj (act a b).1 * (act c d).1 +
    Amplitude.conj (act a b).2 * (act c d).2 = Amplitude.conj a * c + Amplitude.conj b * d

namespace State

variable {s t : State ℂ}

theorem inner_eq_sum (same : s.qubits = t.qubits) :
    s.inner t = ∑ i ∈ Finset.range (1 <<< s.qubits), Amplitude.conj (s.amp i) * t.amp i := by
  have size : t.amps.size = 1 <<< s.qubits := by rw [t.size_amps, same]
  have listed : List.zipWith (fun a b => Amplitude.conj a * b) s.amps.toList t.amps.toList =
      List.ofFn fun i : Fin (1 <<< s.qubits) => Amplitude.conj (s.amp i) * t.amp i := by
    apply List.ext_getElem
    · simp [s.size_amps, size]
    · intro i hi hi'
      simp [amp, Array.getD, s.size_amps, size]
  rw [inner, listed, List.sum_ofFn,
    Fin.sum_univ_eq_sum_range fun i => Amplitude.conj (s.amp i) * t.amp i]

/-- What is written to both states at the same place comes in for what was there. -/
theorem inner_put (same : s.qubits = t.qubits) {i : Nat} (hi : i < 1 <<< s.qubits) (a b : ℂ) :
    (s.put i a).inner (t.put i b) =
      s.inner t - Amplitude.conj (s.amp i) * t.amp i + Amplitude.conj a * b := by
  have member : i ∈ Finset.range (1 <<< s.qubits) := Finset.mem_range.mpr hi
  have terms : ∀ j, Amplitude.conj ((s.put i a).amp j) * (t.put i b).amp j =
      Function.update (fun j => Amplitude.conj (s.amp j) * t.amp j) i (Amplitude.conj a * b) j := by
    intro j
    rw [amp_put s hi, amp_put t (same ▸ hi), Function.update_apply]
    split <;> rfl
  rw [inner_eq_sum (s := s.put i a) (t := t.put i b) same, inner_eq_sum same, qubits_put]
  simp only [terms]
  rw [Finset.sum_update_of_mem member, ← Finset.add_sum_erase _ _ member,
    Finset.sdiff_singleton_eq_erase]
  ring

/-- A pair is written so that its part of the inner product stays. -/
theorem inner_putPair (same : s.qubits = t.qubits) {i j : Nat} (hi : i < 1 <<< s.qubits)
    (hj : j < 1 <<< s.qubits) (apart : i ≠ j) {act : ℂ → ℂ → ℂ × ℂ}
    (isometric : Isometric act) :
    (s.putPair i j act).inner (t.putPair i j act) = s.inner t := by
  have pair := isometric (s.amp i) (s.amp j) (t.amp i) (t.amp j)
  rw [putPair, putPair, inner_put (by exact same) (by exact hj), inner_put same hi, amp_put s hi,
    amp_put t (same ▸ hi), if_neg (Ne.symm apart), if_neg (Ne.symm apart)]
  linear_combination pair

end State

/-! ## Passes -/

namespace Pass

/-- Factors have modulus one, and pairs are replaced isometrically. -/
def Unitary : Pass ℂ → Prop
  | factors f => ∀ i, Complex.normSq (f i) = 1
  | pairs _ _ act => Isometric act

variable {p : Pass ℂ} {s t : State ℂ}

theorem Unitary.inner_visit (h : p.Unitary) (same : s.qubits = t.qubits) (fits : p.Fits s.qubits)
    {i : Nat} (hi : i < 1 <<< s.qubits) : (p.visit s i).inner (p.visit t i) = s.inner t := by
  cases p with
  | factors f =>
    have unit : (starRingEnd ℂ) (f i) * f i = 1 := by
      rw [← Complex.normSq_eq_conj_mul_self, h i, Complex.ofReal_one]
    have product : (Amplitude.conj (s.amp i * f i) : ℂ) =
        Amplitude.conj (s.amp i) * (starRingEnd ℂ) (f i) := map_mul ..
    rw [visit, visit, State.inner_put same hi, product]
    linear_combination Amplitude.conj (s.amp i) * t.amp i * unit
  | pairs k meets act =>
    rw [visit, visit]
    split
    · rename_i met
      have clear : i.testBit k = false := by
        simp only [Bool.and_eq_true, Bool.not_eq_true'] at met
        exact met.2
      have apart : i ≠ i ^^^ 1 <<< k := by
        intro equal
        have bit := testBit_xor_shift_self i k
        rw [← equal, clear] at bit
        cases bit
      rw [or_shift_eq_xor clear]
      exact State.inner_putPair same hi (State.xor_shift_lt hi fits) apart h
    · rfl

/-- The inner product is the same after any number of visits. -/
theorem Unitary.inner_foldl_visit (h : p.Unitary) (same : s.qubits = t.qubits)
    (fits : p.Fits s.qubits) {visits : List Nat} (inside : ∀ i ∈ visits, i < 1 <<< s.qubits) :
    (visits.foldl p.visit s).inner (visits.foldl p.visit t) = s.inner t := by
  induction visits generalizing s t with
  | nil => rfl
  | cons i visits ih =>
    rw [List.forall_mem_cons] at inside
    rw [List.foldl_cons, List.foldl_cons, ih (by simpa using same) (by simpa using fits)
      (by simpa using inside.2), h.inner_visit same fits inside.1]

theorem Unitary.inner_run (h : p.Unitary) (same : s.qubits = t.qubits) (fits : p.Fits s.qubits) :
    (p.run s).inner (p.run t) = s.inner t := by
  rw [run, run, ← same]
  exact h.inner_foldl_visit same fits fun i hi => List.mem_range.mp hi

end Pass

theorem State.inner_sweep {s t : State ℂ} (same : s.qubits = t.qubits) {passes : List (Pass ℂ)}
    (unitary : ∀ p ∈ passes, p.Fits s.qubits ∧ p.Unitary) :
    (s.sweep passes).inner (t.sweep passes) = s.inner t := by
  induction passes generalizing s t with
  | nil => rfl
  | cons p passes ih =>
    rw [List.forall_mem_cons] at unitary
    obtain ⟨⟨fits, first⟩, rest⟩ := unitary
    have later : ((p.run s).sweep passes).inner ((p.run t).sweep passes) =
        (p.run s).inner (p.run t) := ih (by simpa using same) (by simpa using rest)
    exact later.trans (first.inner_run same fits)

/-! ## Operations -/

namespace Pass

theorem unitary_swap (k : Nat) (meets : Nat → Bool) : (swap k meets : Pass ℂ).Unitary :=
  fun _ _ _ _ => add_comm ..

theorem unitary_factors_ite (set : Nat → Bool) {ω : ℂ} (unit : Complex.normSq ω = 1) :
    (factors fun i => if set i then ω else 1).Unitary := by
  intro i
  show Complex.normSq (if set i then ω else 1) = 1
  cases set i with
  | false => exact Complex.normSq_one
  | true => exact unit

theorem normSq_neg_one : Complex.normSq (-1) = 1 := by
  rw [Complex.normSq_neg, Complex.normSq_one]

theorem isometric_hadamard :
    Isometric fun a b => ((a + b) * Amplitude.sqrtHalf, (a - b) * Amplitude.sqrtHalf) := by
  have half : (starRingEnd ℂ) (Amplitude.sqrtHalf : ℂ) * Amplitude.sqrtHalf = 1 / 2 := by
    rw [← Complex.normSq_eq_conj_mul_self, Wave.normSq_sqrtHalf]
    norm_num
  have conj : ∀ x : ℂ, Amplitude.conj x = (starRingEnd ℂ) x := fun _ => rfl
  intro a b c d
  simp only [conj, map_mul, map_add, map_sub]
  linear_combination (2 * ((starRingEnd ℂ) a * c + (starRingEnd ℂ) b * d)) * half

theorem unitary_ofGate {n : Nat} {g : Gate} (fits : g.fits n = true) :
    ∀ p ∈ (ofGate g : List (Pass ℂ)), p.Fits n ∧ p.Unitary := by
  have inside := Gate.fits_iff.mp fits
  cases g with
  | h k =>
    rw [ofGate, List.forall_mem_singleton]
    exact ⟨inside k (by simp [Gate.qubits]), isometric_hadamard⟩
  | s k =>
    rw [ofGate, List.forall_mem_singleton]
    exact ⟨trivial, unitary_factors_ite _ Complex.normSq_I⟩
  | cx c t =>
    rw [ofGate, List.forall_mem_singleton]
    exact ⟨inside t (by simp [Gate.qubits]), unitary_swap t _⟩
  | cz a b =>
    rw [ofGate, List.forall_mem_singleton]
    exact ⟨trivial, unitary_factors_ite _ normSq_neg_one⟩
  | meas k id => exact List.forall_mem_nil _

theorem unitary_ofLetter {n k : Nat} (hk : k < n) (a : Letter) :
    ∀ p ∈ (ofLetter k a : List (Pass ℂ)), p.Fits n ∧ p.Unitary := by
  rw [ofLetter, List.forall_mem_append]
  constructor
  · cases a.z with
    | false => exact List.forall_mem_nil _
    | true => exact List.forall_mem_singleton.mpr ⟨trivial, unitary_factors_ite _ normSq_neg_one⟩
  · cases a.x with
    | false => exact List.forall_mem_nil _
    | true => exact List.forall_mem_singleton.mpr ⟨hk, unitary_swap k _⟩

theorem unitary_ofLetters {n k : Nat} {letters : List Letter} (inside : k + letters.length ≤ n) :
    ∀ p ∈ (ofLetters k letters : List (Pass ℂ)), p.Fits n ∧ p.Unitary := by
  induction letters generalizing k with
  | nil => exact List.forall_mem_nil _
  | cons a rest ih =>
    rw [List.length_cons] at inside
    rw [ofLetters, List.forall_mem_append]
    exact ⟨unitary_ofLetter (by omega) a, ih (by omega)⟩

end Pass

theorem Operation.unitary_passes {n : Nat} {op : Operation ℝ} (fits : op.Fits n) :
    ∀ p ∈ (op.passes n : List (Pass ℂ)), p.Fits n ∧ p.Unitary := by
  cases op with
  | gate g => exact Pass.unitary_ofGate fits.1
  | rotation mask angle =>
    refine List.forall_mem_singleton.mpr ⟨trivial, ?_⟩
    intro i
    exact Wave.normSq_turn _ angle
  | pauli p => exact Pass.unitary_ofLetters (by rw [Nat.zero_add]; exact fits)

/-- **Operations are unitary.** Gates in range, rotations about any qubits and Pauli operators that
are not longer than the state act one after the other on two states. What they leave is what the
passes over the amplitudes leave, in which every amplitude is changed where it stands. The inner
product of the two states stays the same, and with it their overlap. -/
theorem operations_keep_inner_product {n : Nat} {ops : List (Operation ℝ)}
    (fits : ∀ op ∈ ops, op.Fits n) {u v : State ℂ} (hu : u.qubits = n) (hv : v.qubits = n) :
    ∃ u' v', u.applyAll? ops = some u' ∧ v.applyAll? ops = some v' ∧
      u' = u.sweep (ops.flatMap (·.passes n)) ∧ v' = v.sweep (ops.flatMap (·.passes n)) ∧
      u'.qubits = n ∧ v'.qubits = n ∧ u'.inner v' = u.inner v ∧
      ∃ c, u.overlap? v = some c ∧ u'.overlap? v' = some c := by
  have same : u.qubits = v.qubits := hu.trans hv.symm
  have unitary : ∀ p ∈ ops.flatMap (fun op => (op.passes n : List (Pass ℂ))),
      p.Fits u.qubits ∧ p.Unitary := by
    intro p hp
    obtain ⟨op, hop, member⟩ := List.mem_flatMap.mp hp
    rw [hu]
    exact op.unitary_passes (fits op hop) p member
  have kept := State.inner_sweep same unitary
  refine ⟨_, _, u.applyAll?_eq_sweep hu fits, v.applyAll?_eq_sweep hv fits, rfl, rfl,
    by simpa using hu, by simpa using hv, kept, Amplitude.modulus (u.inner v), ?_, ?_⟩
  · rw [State.overlap?, if_pos same]
  · rw [State.overlap?, if_pos (by simpa using same), kept]

/-- Two of the gates have one qubit twice, the rotation also names a third qubit, which does not
exist, and the operator ends before the state does. -/
theorem inner_product_past_repeated_qubits :
    let ops : List (Operation ℝ) := [.gate (.h 1), .gate (.cx 1 1), .gate (.cx 1 0),
      .gate (.cz 0 0), .gate (.s 1), .rotation 6 1, .pauli ⟨[.Y]⟩]
    let u : State ℂ := .ofFn 2 fun i => if i = 0 then 1 else 0
    let v : State ℂ := .ofFn 2 fun i => i + 3
    u.inner v = 3 ∧ ∃ u' v', u.applyAll? ops = some u' ∧ v.applyAll? ops = some v' ∧
      u'.inner v' = 3 ∧ u'.overlap? v' = some 3 := by
  intro ops u v
  have start : u.inner v = 3 := by
    have one : (Amplitude.conj 1 : ℂ) = 1 := map_one (starRingEnd ℂ)
    have zero : (Amplitude.conj 0 : ℂ) = 0 := map_zero (starRingEnd ℂ)
    rw [State.inner_eq_sum (s := u) (t := v) rfl]
    simp [u, v, State.amp_ofFn, Finset.sum_range_succ, Nat.one_shiftLeft, one, zero]
  have fits : ∀ op ∈ ops, op.Fits 2 := by
    simp [ops, Operation.Fits, Gate.fits, Gate.qubits, Pauli.size]
  obtain ⟨u', v', ran, ran', -, -, -, -, inner, c, before, after⟩ :=
    operations_keep_inner_product fits (u := u) (v := v) rfl rfl
  have modulus : u.overlap? v = some 3 := by
    have three : ‖(3 : ℂ)‖ = 3 := Complex.norm_ofNat 3
    have same : u.qubits = v.qubits := rfl
    rw [State.overlap?, if_pos same, start]
    exact congrArg some three
  rw [modulus] at before
  cases before
  exact ⟨start, u', v', ran, ran', inner.trans start, after⟩

end HadamardFree
