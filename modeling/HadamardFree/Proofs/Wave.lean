import HadamardFree.Proofs.Parity
import HadamardFree.State.Exact
import HadamardFree.State.Run

/-!
# States as waves

An exact state, read as a function from bits to amplitudes. On such a function an
operation only names the qubits it acts on, and the number of qubits of the state
plays no part:

* `State.ofWave`, `State.wave`: from one form to the other;
* `applyGates?_ofWave`, `rotate_ofWave`, `applyPauli?_ofWave`: what the operations
  on states do to waves;
* `Wave.Local`: a wave that looks at the first qubits only.
-/

namespace HadamardFree

open Function (update)

/-- An amplitude for each assignment of bits to qubits. -/
abbrev Wave := (Nat → Bool) → ℂ

namespace Wave

/-- Minus one for a bit that is set. -/
def sign (b : Bool) : ℂ :=
  if b then -1 else 1

noncomputable def hadamard (k : Nat) (ψ : Wave) : Wave :=
  fun v => (ψ (update v k false) + sign (v k) * ψ (update v k true)) * Amplitude.sqrtHalf

/-- An X on qubit `k`, or nothing. -/
def flipIf (b : Bool) (k : Nat) (ψ : Wave) : Wave :=
  fun v => ψ (update v k (v k ^^ b))

def cx (c t : Nat) (ψ : Wave) : Wave :=
  fun v => ψ (update v t (v t ^^ v c))

def diagonal (f : (Nat → Bool) → ℂ) (ψ : Wave) : Wave :=
  fun v => ψ v * f v

/-- The action of a gate. A measurement is not a gate on waves and does
nothing. -/
noncomputable def gate : Gate → Wave → Wave
  | .h k => hadamard k
  | .s k => diagonal fun v => if v k then Amplitude.unit else 1
  | .cx c t => if c = t then id else cx c t
  | .cz a b => diagonal fun v => if v a && v b then -1 else 1
  | .meas _ _ => id

noncomputable def gates (gs : List Gate) (ψ : Wave) : Wave :=
  gs.foldl (fun ψ g => gate g ψ) ψ

/-- The factor of a rotation on basis states whose overlap with the axis is odd or
even. -/
noncomputable def turn (odd : Bool) (angle : ℝ) : ℂ :=
  Amplitude.cis (Amplitude.half ℂ (if odd then angle else -angle))

/-- A rotation about the product of Z on the first `n` qubits where `z` holds. -/
noncomputable def rotate (n : Nat) (z : Nat → Bool) (angle : ℝ) : Wave → Wave :=
  diagonal fun v => turn (parity n fun k => v k && z k) angle

@[simp] theorem sign_false : sign false = 1 := rfl

@[simp] theorem sign_true : sign true = -1 := rfl

theorem sign_xor (a b : Bool) : sign (a ^^ b) = sign a * sign b := by
  cases a <;> cases b <;> simp

theorem sign_mul_self (b : Bool) : sign b * sign b = 1 := by
  cases b <;> simp

theorem gates_append (gs more : List Gate) (ψ : Wave) :
    gates (gs ++ more) ψ = gates more (gates gs ψ) :=
  List.foldl_append

/-! ## Linearity -/

theorem hadamard_smul (k : Nat) (ω : ℂ) (ψ : Wave) :
    hadamard k (ω • ψ) = ω • hadamard k ψ := by
  funext v
  simp only [hadamard, Pi.smul_apply, smul_eq_mul]
  ring

theorem diagonal_smul (f : (Nat → Bool) → ℂ) (ω : ℂ) (ψ : Wave) :
    diagonal f (ω • ψ) = ω • diagonal f ψ := by
  funext v
  simp only [diagonal, Pi.smul_apply, smul_eq_mul]
  ring

theorem gate_smul (g : Gate) (ω : ℂ) (ψ : Wave) : gate g (ω • ψ) = ω • gate g ψ := by
  cases g with
  | h k => exact hadamard_smul k ω ψ
  | s k => exact diagonal_smul _ ω ψ
  | cx c t =>
    by_cases same : c = t
    · simp [gate, same]
    · simp only [gate, same, if_false]
      rfl
  | cz a b => exact diagonal_smul _ ω ψ
  | meas k id => rfl

theorem gates_smul (gs : List Gate) (ω : ℂ) (ψ : Wave) : gates gs (ω • ψ) = ω • gates gs ψ := by
  induction gs generalizing ψ with
  | nil => rfl
  | cons g gs ih =>
    rw [gates, List.foldl_cons, gate_smul]
    exact ih (gate g ψ)

/-! ## Locality -/

/-- The wave looks at the first `n` qubits only. -/
def Local (n : Nat) (ψ : Wave) : Prop :=
  ∀ v w : Nat → Bool, (∀ k, k < n → v k = w k) → ψ v = ψ w

theorem agree_update {n : Nat} {v w : Nat → Bool} (h : ∀ k, k < n → v k = w k) (k : Nat)
    (b : Bool) : ∀ j, j < n → update v k b j = update w k b j := by
  intro j hj
  by_cases same : j = k
  · subst same
    simp
  · rw [Function.update_of_ne same, Function.update_of_ne same, h j hj]

theorem Local.hadamard {n k : Nat} {ψ : Wave} (h : Local n ψ) (hk : k < n) :
    Local n (hadamard k ψ) := by
  intro v w agree
  simp only [Wave.hadamard, agree k hk, h _ _ (agree_update agree k false),
    h _ _ (agree_update agree k true)]

theorem Local.flipIf {n k : Nat} {ψ : Wave} (h : Local n ψ) (hk : k < n) (b : Bool) :
    Local n (flipIf b k ψ) := by
  intro v w agree
  simp only [Wave.flipIf, agree k hk]
  exact h _ _ (agree_update agree k _)

theorem Local.diagonal {n : Nat} {ψ : Wave} {f : (Nat → Bool) → ℂ} (h : Local n ψ)
    (hf : Local n f) : Local n (diagonal f ψ) := by
  intro v w agree
  simp only [Wave.diagonal, h v w agree, hf v w agree]

theorem Local.gate {n : Nat} {ψ : Wave} (h : Local n ψ) {g : Gate} (fits : g.fits n = true) :
    Local n (gate g ψ) := by
  have inside := Gate.fits_iff.mp fits
  cases g with
  | h k => exact h.hadamard (inside k (by simp [Gate.qubits]))
  | s k =>
    apply h.diagonal
    intro v w agree
    simp only [agree k (inside k (by simp [Gate.qubits]))]
  | cx c t =>
    by_cases same : c = t
    · simpa [Wave.gate, same] using h
    · intro v w agree
      simp only [Wave.gate, same, if_false, cx, agree c (inside c (by simp [Gate.qubits])),
        agree t (inside t (by simp [Gate.qubits]))]
      exact h _ _ (agree_update agree t _)
  | cz a b =>
    apply h.diagonal
    intro v w agree
    simp only [agree a (inside a (by simp [Gate.qubits])),
      agree b (inside b (by simp [Gate.qubits]))]
  | meas k id => exact h

theorem Local.rotate {n : Nat} {ψ : Wave} (h : Local n ψ) (z : Nat → Bool) (angle : ℝ) :
    Local n (rotate n z angle ψ) := by
  apply h.diagonal
  intro v w agree
  have same : (parity n fun k => v k && z k) = parity n fun k => w k && z k :=
    parity_congr fun k hk => by rw [agree k hk]
  simp only [same]

end Wave

/-! ## Bits of basis states -/

theorem State.mask_lt (bits : List Bool) : mask bits < 2 ^ bits.length := by
  induction bits with
  | nil => simp [mask]
  | cons b bits ih =>
    have := b.toNat_lt
    rw [mask, List.length_cons, Nat.pow_succ]
    omega

namespace State

/-- The basis state of `n` qubits with the given bits. -/
def index (n : Nat) (v : Nat → Bool) : Nat :=
  mask ((List.range n).map v)

theorem index_lt (n : Nat) (v : Nat → Bool) : index n v < 1 <<< n := by
  have := mask_lt ((List.range n).map v)
  simpa [index, Nat.one_shiftLeft] using this

theorem testBit_index {n k : Nat} (v : Nat → Bool) (hk : k < n) :
    (index n v).testBit k = v k := by
  rw [index, testBit_mask, List.getD_eq_getElem?_getD]
  simp [hk]

theorem index_congr {n : Nat} {v w : Nat → Bool} (h : ∀ k, k < n → v k = w k) :
    index n v = index n w := by
  rw [index, index]
  congr 1
  apply List.map_congr_left
  intro k hk
  exact h k (List.mem_range.mp hk)

/-- The basis states of `n` qubits have no bits beyond. -/
theorem lt_shift_iff {n i : Nat} : i < 1 <<< n ↔ ∀ k, n ≤ k → i.testBit k = false := by
  rw [Nat.one_shiftLeft]
  constructor
  · intro h k hk
    exact Nat.testBit_lt_two_pow (Nat.lt_of_lt_of_le h (Nat.pow_le_pow_right (by omega) hk))
  · exact Nat.lt_pow_two_of_testBit i

theorem index_testBit {n i : Nat} (h : i < 1 <<< n) : index n i.testBit = i := by
  apply Nat.eq_of_testBit_eq
  intro k
  by_cases hk : k < n
  · exact testBit_index _ hk
  · rw [lt_shift_iff.mp (index_lt ..) k (by omega), lt_shift_iff.mp h k (by omega)]

theorem testBit_xor_shift (i k : Nat) :
    (i ^^^ 1 <<< k).testBit = update i.testBit k (!i.testBit k) := by
  funext j
  rw [Nat.testBit_xor, Nat.testBit_shiftLeft]
  by_cases same : j = k
  · subst same
    simp
  · rw [Function.update_of_ne same]
    by_cases below : j < k
    · simp [Nat.not_le.mpr below]
    · have apart : j - k ≠ 0 := by omega
      have bit : Nat.testBit 1 (j - k) = false := by
        rw [← Bool.not_eq_true, Nat.testBit_one_eq_true_iff_self_eq_zero]
        exact apart
      simp [bit]

theorem xor_shift_lt {n i k : Nat} (hi : i < 1 <<< n) (hk : k < n) :
    i ^^^ 1 <<< k < 1 <<< n := by
  rw [Nat.one_shiftLeft] at hi ⊢
  rw [Nat.one_shiftLeft]
  exact Nat.xor_lt_two_pow hi (Nat.pow_lt_pow_right (by omega) hk)

/-! ## From waves to states and back -/

noncomputable def ofWave (n : Nat) (ψ : Wave) : State ℂ :=
  ofFn n fun i => ψ i.testBit

noncomputable def wave (s : State ℂ) : Wave :=
  fun v => s.amp (index s.qubits v)

@[simp] theorem qubits_ofWave (n : Nat) (ψ : Wave) : (ofWave n ψ).qubits = n := rfl

theorem amp_ofWave {n i : Nat} (ψ : Wave) (h : i < 1 <<< n) :
    (ofWave n ψ).amp i = ψ i.testBit := by
  rw [ofWave, amp_ofFn, if_pos h]

theorem ofWave_wave (s : State ℂ) : ofWave s.qubits s.wave = s := by
  refine ext_amp (qubits_ofWave ..) ?_
  intro i (hi : i < 1 <<< s.qubits)
  rw [amp_ofWave _ hi, wave, index_testBit hi]

theorem local_wave (s : State ℂ) : s.wave.Local s.qubits := by
  intro v w agree
  rw [wave, wave, index_congr agree]

/-! ## Operations on states -/

/-- Two forms of a state are the same if they have the same amplitudes. -/
theorem eq_ofWave {n : Nat} {s : State ℂ} {ψ : Wave} (qubits : s.qubits = n)
    (amps : ∀ i, i < 1 <<< n → s.amp i = ψ i.testBit) : s = ofWave n ψ := by
  refine ext_amp qubits ?_
  intro i hi
  rw [qubits] at hi
  rw [amps i hi, amp_ofWave ψ hi]

theorem diagonal_ofWave {n : Nat} (ψ : Wave) {f : Nat → ℂ} {f' : (Nat → Bool) → ℂ}
    (h : ∀ i, f i = f' i.testBit) : (ofWave n ψ).diagonal f = ofWave n (ψ.diagonal f') := by
  refine eq_ofWave (n := n) rfl ?_
  intro i hi
  rw [amp_diagonal _ _ hi, amp_ofWave ψ hi, h i]
  rfl

theorem hadamard_ofWave {n k : Nat} (ψ : Wave) (hk : k < n) :
    (ofWave n ψ).hadamard k = ofWave n (ψ.hadamard k) := by
  refine eq_ofWave (n := n) rfl ?_
  intro i hi
  rw [amp_hadamard _ _ hi, amp_ofWave ψ hi, amp_ofWave ψ (xor_shift_lt hi hk), testBit_xor_shift]
  have own : update i.testBit k (i.testBit k) = i.testBit := Function.update_eq_self ..
  cases bit : i.testBit k with
  | false =>
    rw [bit] at own
    simp [Wave.hadamard, bit, own]
  | true =>
    rw [bit] at own
    simp [Wave.hadamard, bit, own, sub_eq_add_neg]

theorem flip_ofWave {n k : Nat} (ψ : Wave) (hk : k < n) :
    (ofWave n ψ).flip k = ofWave n (ψ.flipIf true k) := by
  refine eq_ofWave (n := n) rfl ?_
  intro i hi
  rw [amp_flip _ _ hi, amp_ofWave ψ (xor_shift_lt hi hk), testBit_xor_shift, Wave.flipIf,
    Bool.xor_true]

theorem cx_ofWave {n c t : Nat} (ψ : Wave) (ht : t < n) :
    (ofWave n ψ).flipIf c t = ofWave n (ψ.cx c t) := by
  refine eq_ofWave (n := n) rfl ?_
  intro i hi
  rw [amp_flipIf _ _ _ hi, amp_ofWave ψ hi, amp_ofWave ψ (xor_shift_lt hi ht), testBit_xor_shift,
    Wave.cx]
  cases i.testBit c <;> simp

theorem rotate_ofWave {n : Nat} (ψ : Wave) (bits : List Bool) (angle : ℝ) :
    (ofWave n ψ).rotate (mask bits) angle =
      ofWave n (ψ.rotate n (fun k => bits.getD k false) angle) := by
  apply diagonal_ofWave
  intro i
  simp only [oddOverlap, testBit_mask]
  rfl

theorem applyGate?_ofWave {n : Nat} {g : Gate} (ψ : Wave) (fits : g.fits n = true)
    (unitary : ∀ k id, g ≠ .meas k id) :
    (ofWave n ψ).applyGate? g = some (ofWave n (ψ.gate g)) := by
  have inside := Gate.fits_iff.mp fits
  cases g with
  | h k =>
    have hk : k < n := inside k (by simp [Gate.qubits])
    simp [applyGate?, hk, hadamard_ofWave ψ hk, Wave.gate]
  | s k => exact congrArg some (diagonal_ofWave ψ fun i => rfl)
  | cx c t =>
    have hc : c < n := inside c (by simp [Gate.qubits])
    have ht : t < n := inside t (by simp [Gate.qubits])
    by_cases same : c = t
    · simp [applyGate?, same, Wave.gate]
    · simp [applyGate?, same, Wave.gate, hc, ht, cx_ofWave ψ ht]
  | cz a b => exact congrArg some (diagonal_ofWave ψ fun i => rfl)
  | meas k id => exact absurd rfl (unitary k id)

theorem applyGates?_ofWave {n : Nat} {gs : List Gate} (ψ : Wave)
    (fits : ∀ g ∈ gs, g.fits n = true) (unitary : ∀ g ∈ gs, ∀ k id, g ≠ .meas k id) :
    (ofWave n ψ).applyGates? gs = some (ofWave n (ψ.gates gs)) := by
  induction gs generalizing ψ with
  | nil => rfl
  | cons g gs ih =>
    rw [applyGates?, List.foldlM_cons,
      applyGate?_ofWave ψ (fits g (List.mem_cons_self ..)) (unitary g (List.mem_cons_self ..))]
    exact ih (ψ.gate g) (fun g' h => fits g' (List.mem_cons_of_mem _ h))
      (fun g' h => unitary g' (List.mem_cons_of_mem _ h))

end State

end HadamardFree
