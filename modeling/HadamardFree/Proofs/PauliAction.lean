import HadamardFree.Proofs.Conjugation
import HadamardFree.Proofs.Wave
import Mathlib.Tactic.LinearCombination

/-!
# Pauli operators on waves

The action of an operator in closed form, `Wave.pauli`, and how it passes the
other operations:

* `Wave.gate_pauli`: behind an elementary gate comes the operator conjugated by the
  gate, up to a fourth root of one;
* `Wave.rotate_pauli`: a rotation turns the other way where its axis does not
  commute with the operator;
* `Wave.pauli_comm`, `Wave.pauli_self`: two operators commute up to a sign, and an
  operator undoes itself up to a sign.
-/

namespace HadamardFree

open Function (update)

namespace Wave

/-- The bits after the X parts of an operator. -/
def shift (p : Pauli) (v : Nat → Bool) : Nat → Bool :=
  fun k => v k ^^ (p.letter k).x

/-- The parity of the Z parts of an operator on the given bits. -/
def zParity (p : Pauli) (v : Nat → Bool) : Bool :=
  parity p.size fun k => (p.letter k).z && v k

/-- On each qubit first Z, then X. -/
noncomputable def pauli (p : Pauli) (ψ : Wave) : Wave :=
  fun v => sign (zParity p (shift p v)) * ψ (shift p v)

theorem zParity_of_le {p : Pauli} {n : Nat} (h : p.size ≤ n) (v : Nat → Bool) :
    zParity p v = parity n fun k => (p.letter k).z && v k := by
  symm
  apply parity_of_le h
  intro k hk _
  rw [Pauli.letter_of_size_le hk]
  rfl

theorem pauli_congr {p q : Pauli} (h : ∀ k, p.letter k = q.letter k) (ψ : Wave) :
    pauli p ψ = pauli q ψ := by
  funext v
  have bits : shift p v = shift q v := by
    funext k
    rw [shift, shift, h k]
  have parities : zParity p (shift q v) = zParity q (shift q v) := by
    rw [zParity_of_le (Nat.le_max_left p.size q.size), zParity_of_le (Nat.le_max_right p.size q.size)]
    simp only [h]
  rw [pauli, pauli, bits, parities]

theorem pauli_smul (p : Pauli) (ω : ℂ) (ψ : Wave) : pauli p (ω • ψ) = ω • pauli p ψ := by
  funext v
  simp only [pauli, Pi.smul_apply, smul_eq_mul]
  ring

theorem Local.pauli {n : Nat} {ψ : Wave} (h : Local n ψ) {p : Pauli} (size : p.size ≤ n) :
    Local n (pauli p ψ) := by
  intro v w agree
  have same : ∀ k, k < n → shift p v k = shift p w k := by
    intro k hk
    rw [shift, shift, agree k hk]
  have parities : zParity p (shift p v) = zParity p (shift p w) :=
    parity_congr fun k hk => by rw [same k (Nat.lt_of_lt_of_le hk size)]
  rw [Wave.pauli, Wave.pauli, parities, h _ _ same]

/-! ## One qubit at a time -/

noncomputable def letter (k : Nat) (a : Letter) (ψ : Wave) : Wave :=
  fun v => sign (a.z && (v k ^^ a.x)) * ψ (update v k (v k ^^ a.x))

theorem shift_update {p : Pauli} {k : Nat} (idle : p.letter k = .I) (v : Nat → Bool) (b : Bool) :
    shift p (update v k b) = update (shift p v) k b := by
  funext j
  by_cases same : j = k
  · subst same
    simp [shift, idle, Letter.x]
  · simp [shift, same]

theorem zParity_update {p : Pauli} {k : Nat} (idle : p.letter k = .I) (v : Nat → Bool) (b : Bool) :
    zParity p (update v k b) = zParity p v := by
  apply parity_congr
  intro j _
  by_cases same : j = k
  · subst same
    simp [idle, Letter.z]
  · rw [Function.update_of_ne same]

theorem pauli_update {p : Pauli} {k : Nat} (idle : p.letter k = .I) (ψ : Wave) (v : Nat → Bool)
    (b : Bool) :
    pauli p ψ (update v k b) = sign (zParity p (shift p v)) * ψ (update (shift p v) k b) := by
  rw [pauli, shift_update idle, zParity_update idle]

/-- The letter on one qubit can be applied last, after the rest of the operator. -/
theorem pauli_eq_letter {p : Pauli} {k : Nat} (hk : k < p.size) (ψ : Wave) :
    pauli p ψ = letter k (p.letter k) (pauli (p.modify k fun _ => .I) ψ) := by
  have idle : (p.modify k fun _ => Letter.I).letter k = .I := by simp [Pauli.letter_modify, hk]
  have other : ∀ j, j ≠ k → (p.modify k fun _ => Letter.I).letter j = p.letter j := by
    intro j hj
    simp [Pauli.letter_modify, hj]
  funext v
  rw [letter, pauli_update idle]
  have bits : update (shift (p.modify k fun _ => .I) v) k (v k ^^ (p.letter k).x) = shift p v := by
    funext j
    by_cases same : j = k
    · subst same
      simp [shift]
    · simp [shift, same, other j same]
  have parities : zParity p (shift p v) =
      (((p.letter k).z && (v k ^^ (p.letter k).x)) ^^
        zParity (p.modify k fun _ => .I) (shift (p.modify k fun _ => .I) v)) := by
    have updated : (fun j => (p.letter j).z && shift p v j) =
        update (fun j => ((p.modify k fun _ => Letter.I).letter j).z &&
          shift (p.modify k fun _ => .I) v j) k ((p.letter k).z && (v k ^^ (p.letter k).x)) := by
      funext j
      by_cases same : j = k
      · subst same
        simp [shift]
      · simp [shift, same, other j same]
    rw [zParity, zParity, updated, parity_update _ _ hk, Pauli.size_modify, idle]
    simp [Letter.z, Bool.xor_comm]
  rw [bits, pauli, parities, sign_xor]
  ring

theorem pauli_nil (ψ : Wave) : pauli ⟨[]⟩ ψ = ψ := by
  have bits : ∀ v, shift ⟨[]⟩ v = v := by
    intro v
    funext k
    simp [shift, Pauli.letter, Letter.x]
  funext v
  simp [pauli, zParity, Pauli.size, bits]

theorem pauli_snoc (as : List Letter) (a : Letter) (ψ : Wave) :
    pauli ⟨as ++ [a]⟩ ψ = letter as.length a (pauli ⟨as⟩ ψ) := by
  have size : as.length < Pauli.size ⟨as ++ [a]⟩ := by simp [Pauli.size]
  have last : Pauli.letter ⟨as ++ [a]⟩ as.length = a := by simp [Pauli.letter]
  have others : ∀ k, (Pauli.modify ⟨as ++ [a]⟩ as.length fun _ => .I).letter k =
      Pauli.letter ⟨as⟩ k := by
    intro k
    rw [Pauli.letter_modify]
    rcases Nat.lt_trichotomy k as.length with below | rfl | above
    · simp [Nat.ne_of_lt below, Pauli.letter, List.getElem?_append_left below]
    · simp [size, Pauli.letter]
    · rw [if_neg (by omega), Pauli.letter_of_size_le, Pauli.letter_of_size_le]
      · exact Nat.le_of_lt above
      · simpa [Pauli.size] using above
  rw [pauli_eq_letter size, last, pauli_congr others]

/-! ## Past gates -/

theorem hadamard_pauli {p : Pauli} {k : Nat} (idle : p.letter k = .I) (ψ : Wave) :
    hadamard k (pauli p ψ) = pauli p (hadamard k ψ) := by
  funext v
  have own : shift p v k = v k := by simp [shift, idle, Letter.x]
  simp only [hadamard, pauli_update idle]
  simp only [pauli, hadamard, own]
  ring

theorem diagonal_pauli {p : Pauli} {f : (Nat → Bool) → ℂ} (h : ∀ v, f (shift p v) = f v)
    (ψ : Wave) : diagonal f (pauli p ψ) = pauli p (diagonal f ψ) := by
  funext v
  simp only [diagonal, pauli, h]
  ring

theorem cx_pauli {p : Pauli} {c t : Nat} (control : p.letter c = .I) (target : p.letter t = .I)
    (ψ : Wave) : cx c t (pauli p ψ) = pauli p (cx c t ψ) := by
  funext v
  have own : shift p v t = v t ∧ shift p v c = v c := by simp [shift, control, target, Letter.x]
  simp only [cx, pauli_update target]
  simp only [pauli, cx, own]

theorem hadamard_letter (k : Nat) (a : Letter) (ψ : Wave) :
    hadamard k (letter k a ψ) = sign (a.x && a.z) • letter k a.hadamard (hadamard k ψ) := by
  funext v
  simp only [hadamard, letter, Function.update_self, Function.update_idem, Pi.smul_apply,
    smul_eq_mul]
  cases a <;> cases v k <;>
    simp [Letter.hadamard, Letter.x, Letter.z, Letter.ofBits, -mul_eq_mul_right_iff] <;> ring

theorem s_letter (k : Nat) (a : Letter) (ψ : Wave) :
    gate (.s k) (letter k a ψ) =
      (if a.x then (Amplitude.unit : ℂ) else 1) • letter k a.phase (gate (.s k) ψ) := by
  have square : (Amplitude.unit : ℂ) * Amplitude.unit = -1 := Complex.I_mul_I
  funext v
  simp only [gate, diagonal, letter, Function.update_self, Pi.smul_apply, smul_eq_mul]
  cases bit : v k with
  | false =>
    cases a <;> simp [Letter.phase, Letter.hadamard, Letter.times, Letter.xPart, Letter.x,
      Letter.z, Letter.ofBits]
    · linear_combination ψ (update v k true) * square
    · linear_combination -ψ (update v k true) * square
  | true =>
    cases a <;> simp [Letter.phase, Letter.hadamard, Letter.times, Letter.xPart, Letter.x,
      Letter.z, Letter.ofBits, mul_comm]

theorem cx_letters {c t : Nat} (distinct : c ≠ t) (a b : Letter) (ψ : Wave) :
    cx c t (letter c a (letter t b ψ)) =
      letter c (.ofBits a.x (a.z ^^ b.z)) (letter t (.ofBits (b.x ^^ a.x) b.z) (cx c t ψ)) := by
  funext v
  have bits : update (update (update v t (v t ^^ v c)) c (v c ^^ a.x)) t ((v t ^^ v c) ^^ b.x) =
      update (update (update v c (v c ^^ a.x)) t (v t ^^ (b.x ^^ a.x))) t
        ((v t ^^ (b.x ^^ a.x)) ^^ (v c ^^ a.x)) := by
    funext j
    by_cases target : j = t
    · subst target
      simp only [Function.update_self]
      cases v j <;> cases v c <;> cases b.x <;> cases a.x <;> rfl
    · by_cases control : j = c
      · subst control
        simp [distinct]
      · simp [target, control]
  simp only [cx, letter, Function.update_self, Function.update_of_ne distinct,
    Function.update_of_ne (Ne.symm distinct), Letter.x_ofBits, Letter.z_ofBits, bits]
  cases a <;> cases b <;> cases v c <;> cases v t <;> simp [Letter.x, Letter.z]

theorem modify_modify (p : Pauli) (k : Nat) (f : Letter → Letter) :
    (p.modify k f).modify k (fun _ => .I) = p.modify k fun _ => .I := by
  apply Pauli.ext_letter (by simp)
  intro j _
  simp only [Pauli.letter_modify, Pauli.size_modify]
  split
  · rfl
  · rfl

theorem pauli_eq_letters {p : Pauli} {c t : Nat} (hc : c < p.size) (ht : t < p.size)
    (distinct : c ≠ t) (ψ : Wave) :
    pauli p ψ = letter c (p.letter c) (letter t (p.letter t)
      (pauli ((p.modify c fun _ => .I).modify t fun _ => .I) ψ)) := by
  have ht' : t < (p.modify c fun _ => Letter.I).size := by simpa using ht
  have other : (p.modify c fun _ => Letter.I).letter t = p.letter t := by
    simp [Pauli.letter_modify, Ne.symm distinct]
  rw [pauli_eq_letter hc, pauli_eq_letter ht', other]

theorem conjugateCX_modify {p : Pauli} {c t : Nat} (hc : c < p.size) (ht : t < p.size)
    (distinct : c ≠ t) :
    ((p.conjugateCX c t).modify c fun _ => Letter.I).modify t (fun _ => Letter.I) =
      (p.modify c fun _ => Letter.I).modify t fun _ => Letter.I := by
  apply Pauli.ext_letter (by simp)
  intro j _
  simp only [Pauli.letter_modify, Pauli.size_modify, Pauli.size_conjugateCX,
    Pauli.letter_conjugateCX hc ht distinct]
  by_cases target : j = t
  · simp [target, ht]
  · by_cases control : j = c
    · simp [control, distinct, hc]
    · simp [target, control]

/-- **Gates carry operators to operators.** An elementary gate behind an operator is
the same, up to a fourth root of one, as the conjugate operator behind the gate. -/
theorem gate_pauli {p : Pauli} {g : Gate} (carries : g.Carries p.size)
    (distinct : ∀ k, g ≠ .cx k k) :
    ∃ ω : ℂ, ω ^ 4 = 1 ∧ ∀ ψ, gate g (pauli p ψ) = ω • pauli (p.past g) (gate g ψ) := by
  have inside := Gate.fits_iff.mp carries.2
  cases g with
  | h k =>
    have hk : k < p.size := inside k (by simp [Gate.qubits])
    have idle : (p.modify k fun _ => Letter.I).letter k = .I := by simp [Pauli.letter_modify, hk]
    refine ⟨sign ((p.letter k).x && (p.letter k).z), ?_, ?_⟩
    · cases (p.letter k).x && (p.letter k).z <;> norm_num
    · intro ψ
      have own : (p.modify k Letter.hadamard).letter k = (p.letter k).hadamard := by
        simp [Pauli.letter_modify, hk]
      rw [Pauli.past_h hk, pauli_eq_letter hk, gate, hadamard_letter, hadamard_pauli idle,
        pauli_eq_letter (p := p.modify k Letter.hadamard) (by simpa using hk), own, modify_modify]
  | s k =>
    have hk : k < p.size := inside k (by simp [Gate.qubits])
    have idle : (p.modify k fun _ => Letter.I).letter k = .I := by simp [Pauli.letter_modify, hk]
    refine ⟨if (p.letter k).x then Amplitude.unit else 1, ?_, ?_⟩
    · split
      · exact Complex.I_pow_four
      · norm_num
    · intro ψ
      have own : (p.modify k Letter.phase).letter k = (p.letter k).phase := by
        simp [Pauli.letter_modify, hk]
      have passes : gate (.s k) (pauli (p.modify k fun _ => .I) ψ) =
          pauli (p.modify k fun _ => .I) (gate (.s k) ψ) := by
        apply diagonal_pauli
        intro v
        simp [shift, idle, Letter.x]
      rw [Pauli.past_s hk, pauli_eq_letter hk, s_letter, passes,
        pauli_eq_letter (p := p.modify k Letter.phase) (by simpa using hk), own, modify_modify]
  | cx c t =>
    have hc : c < p.size := inside c (by simp [Gate.qubits])
    have ht : t < p.size := inside t (by simp [Gate.qubits])
    have apart : c ≠ t := fun same => distinct c (by rw [same])
    have idle : ∀ j, j = c ∨ j = t →
        ((p.modify c fun _ => Letter.I).modify t fun _ => Letter.I).letter j = .I := by
      rintro j (rfl | rfl) <;> simp [Pauli.letter_modify, hc, ht]
    refine ⟨1, by norm_num, ?_⟩
    intro ψ
    have hc' : c < (p.conjugateCX c t).size := by simpa using hc
    have ht' : t < (p.conjugateCX c t).size := by simpa using ht
    rw [one_smul, Pauli.past_cx hc ht, pauli_eq_letters hc ht apart ψ,
      pauli_eq_letters hc' ht' apart, conjugateCX_modify hc ht apart,
      Pauli.letter_conjugateCX hc ht apart, Pauli.letter_conjugateCX hc ht apart]
    simp only [gate, apart, if_false, if_true]
    rw [cx_letters apart, cx_pauli (idle c (.inl rfl)) (idle t (.inr rfl))]
  | cz a b => cases carries.1
  | meas k id => cases carries.1

/-! ## Past rotations and other operators -/

theorem turn_xor (odd b : Bool) (angle : ℝ) :
    turn (odd ^^ b) (State.signed b angle) = turn odd angle := by
  cases odd <;> cases b <;> simp [turn, State.signed]

/-- A rotation about a diagonal axis turns the other way in front of an operator that
its axis does not commute with. -/
theorem rotate_pauli {n : Nat} {p axis : Pauli} (size : axis.size ≤ n)
    (isDiagonal : ∀ k, (axis.letter k).x = false) (angle : ℝ) (ψ : Wave) :
    rotate n (fun k => (axis.letter k).z) angle (pauli p ψ) =
      pauli p (rotate n (fun k => (axis.letter k).z)
        (State.signed (!axis.commutes p) angle) ψ) := by
  have clash : (!axis.commutes p) = parity n fun k => (p.letter k).x && (axis.letter k).z := by
    rw [Pauli.commutes_eq_parity (Nat.le_trans (Nat.min_le_left ..) size), Bool.not_not]
    apply parity_congr
    intro k _
    simp [isDiagonal k, Bool.and_comm]
  have parities : ∀ v, (parity n fun k => shift p v k && (axis.letter k).z) =
      ((parity n fun k => v k && (axis.letter k).z) ^^ !axis.commutes p) := by
    intro v
    rw [clash, ← parity_xor]
    apply parity_congr
    intro k _
    rw [shift, Bool.and_xor_distrib_right]
  funext v
  simp only [rotate, diagonal, pauli, parities, turn_xor]
  ring

theorem shift_shift (p q : Pauli) (v : Nat → Bool) : shift p (shift q v) = shift q (shift p v) := by
  funext k
  simp only [shift, Bool.xor_assoc, Bool.xor_comm (q.letter k).x]

theorem zParity_shift (p q : Pauli) (v : Nat → Bool) :
    zParity p (shift q v) =
      (zParity p v ^^ parity p.size fun k => (p.letter k).z && (q.letter k).x) := by
  rw [zParity, zParity, ← parity_xor]
  apply parity_congr
  intro k _
  rw [shift, Bool.and_xor_distrib_left]

/-- Operators commute up to the sign that their letters tell. -/
theorem pauli_comm (p q : Pauli) (ψ : Wave) :
    pauli q (pauli p ψ) = sign (!p.commutes q) • pauli p (pauli q ψ) := by
  have clash : (!p.commutes q) =
      ((parity p.size fun k => (p.letter k).z && (q.letter k).x) ^^
        parity q.size fun k => (q.letter k).z && (p.letter k).x) := by
    have wide : ∀ r r' : Pauli, r.size ≤ max p.size q.size →
        (parity r.size fun k => (r.letter k).z && (r'.letter k).x) =
          parity (max p.size q.size) fun k => (r.letter k).z && (r'.letter k).x :=
      fun r r' h => zParity_of_le h fun k => (r'.letter k).x
    rw [Pauli.commutes_eq_parity (n := max p.size q.size)
        (Nat.le_trans (Nat.min_le_left ..) (Nat.le_max_left ..)), Bool.not_not, parity_xor,
      wide p q (Nat.le_max_left ..), wide q p (Nat.le_max_right ..), Bool.xor_comm]
    simp only [Bool.and_comm]
  funext v
  have second : zParity q (shift q (shift p v)) =
      (zParity q (shift q v) ^^ parity q.size fun k => (q.letter k).z && (p.letter k).x) := by
    rw [shift_shift, zParity_shift]
  simp only [pauli, Pi.smul_apply, smul_eq_mul, second, clash, sign_xor, shift_shift p q v,
    zParity_shift p q]
  have square := sign_mul_self (parity q.size fun k => (q.letter k).z && (p.letter k).x)
  linear_combination (-sign (zParity p (shift p v)) * sign (zParity q (shift q v)) *
    sign (parity p.size fun k => (p.letter k).z && (q.letter k).x) *
    ψ (shift q (shift p v))) * square

/-- An operator undoes itself up to a sign. -/
theorem pauli_self (p : Pauli) (ψ : Wave) :
    pauli p (pauli p ψ) =
      sign (parity p.size fun k => (p.letter k).z && (p.letter k).x) • ψ := by
  funext v
  have back : shift p (shift p v) = v := by
    funext k
    simp [shift]
  have twice : zParity p v = (zParity p (shift p v) ^^
      parity p.size fun k => (p.letter k).z && (p.letter k).x) := by
    rw [← zParity_shift, back]
  simp only [pauli, Pi.smul_apply, smul_eq_mul, back, twice, sign_xor]
  linear_combination (sign (parity p.size fun k => (p.letter k).z && (p.letter k).x) * ψ v) *
    sign_mul_self (zParity p (shift p v))

end Wave

/-! ## On states -/

namespace State

theorem applyLetters?_append (k : Nat) (s : State ℂ) (as bs : List Letter) :
    applyLetters? k s (as ++ bs) =
      (applyLetters? k s as).bind fun t => applyLetters? (k + as.length) t bs := by
  induction as generalizing k s with
  | nil => rfl
  | cons a as ih =>
    rw [List.cons_append, applyLetters?, applyLetters?]
    cases s.applyLetter? k a with
    | none => rfl
    | some t =>
      simp only [ih, List.length_cons]
      rw [Nat.add_right_comm, Nat.add_assoc]

theorem applyLetter?_ofWave {n k : Nat} (ψ : Wave) (a : Letter) (hk : k < n) :
    (ofWave n ψ).applyLetter? k a = some (ofWave n (ψ.letter k a)) := by
  have turned : (if a.z then (ofWave n ψ).phaseAt k (-1) else ofWave n ψ) =
      ofWave n (ψ.diagonal fun v => Wave.sign (a.z && v k)) := by
    cases a.z with
    | true =>
      rw [if_pos rfl]
      exact diagonal_ofWave ψ fun i => rfl
    | false =>
      rw [if_neg Bool.false_ne_true]
      congr 1
      funext v
      simp [Wave.diagonal]
  rw [applyLetter?, turned]
  cases hx : a.x with
  | true =>
    simp only [if_true, qubits_ofWave, hk]
    rw [flip_ofWave _ hk]
    congr 2
    funext v
    simp [Wave.flipIf, Wave.diagonal, Wave.letter, hx, mul_comm]
  | false =>
    simp only [Bool.false_eq_true, if_false]
    congr 2
    funext v
    simp [Wave.diagonal, Wave.letter, hx, mul_comm]

/-- An operator that is not longer than the state acts on it. -/
theorem applyPauli?_ofWave {n : Nat} {p : Pauli} (ψ : Wave) (size : p.size ≤ n) :
    (ofWave n ψ).applyPauli? p = some (ofWave n (ψ.pauli p)) := by
  cases p with | mk as =>
  induction as using List.reverseRecOn with
  | nil =>
    rw [Wave.pauli_nil]
    rfl
  | append_singleton as a ih =>
    have hk : as.length < n := by simpa [Pauli.size] using size
    have first := ih (Nat.le_of_lt hk)
    rw [applyPauli?] at first ⊢
    rw [applyLetters?_append, first, Option.bind_some, Nat.zero_add, applyLetters?,
      applyLetter?_ofWave _ a hk, Wave.pauli_snoc]
    rfl

end State

end HadamardFree
