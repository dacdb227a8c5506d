import HadamardFree.Proofs.PauliAction

/-!
# Conjugation is the action of the gates

The rules by which gates change the letters of an operator, compared with what gates
and operators do to states:

* `Wave.gates_pauli`: a list of gates behind an operator is the conjugate operator
  behind the gates, up to a fourth root of one;
* `conjugate_acts_on_states`: the same for states, where conjugation always succeeds
  and one factor serves all states.
-/

namespace HadamardFree

/-- Gates carry an operator past them one after the other, and the factors of the single
gates multiply. -/
theorem Wave.gates_pauli {p : Pauli} {gs : List Gate} (carries : ∀ g ∈ gs, g.Carries p.size)
    (distinct : ∀ g ∈ gs, ∀ k, g ≠ .cx k k) :
    ∃ ω : ℂ, ω ^ 4 = 1 ∧ ∀ ψ, gates gs (pauli p ψ) = ω • pauli (p.through gs) (gates gs ψ) := by
  induction gs generalizing p with
  | nil => exact ⟨1, one_pow 4, fun ψ => (one_smul ℂ _).symm⟩
  | cons g gs ih =>
    rw [List.forall_mem_cons] at carries distinct
    obtain ⟨ω, root, passes⟩ := gate_pauli carries.1 distinct.1
    have rest : ∀ g' ∈ gs, g'.Carries (p.past g).size := by
      rw [Pauli.size_past]
      exact carries.2
    obtain ⟨ω', root', passes'⟩ := ih rest distinct.2
    refine ⟨ω * ω', by rw [mul_pow, root, root', one_mul], ?_⟩
    intro ψ
    calc gates (g :: gs) (pauli p ψ)
        = gates gs (ω • pauli (p.past g) (gate g ψ)) := congrArg (gates gs) (passes ψ)
      _ = ω • ω' • pauli ((p.past g).through gs) (gates gs (gate g ψ)) := by
        rw [gates_smul, passes']
      _ = (ω * ω') • pauli (p.through (g :: gs)) (gates (g :: gs) ψ) := by
        rw [smul_smul, Pauli.through_cons carries.1]
        rfl

theorem eq_of_pow_four_eq_one {ω : ℂ} (root : ω ^ 4 = 1) :
    ω = 1 ∨ ω = -1 ∨ ω = Complex.I ∨ ω = -Complex.I := by
  have product : (ω ^ 2 - 1 ^ 2) * (ω ^ 2 - Complex.I ^ 2) = 0 := by
    rw [Complex.I_sq]
    linear_combination root
  rcases mul_eq_zero.mp product with real | imaginary
  · rcases sq_eq_sq_iff_eq_or_eq_neg.mp (sub_eq_zero.mp real) with h | h
    · exact .inl h
    · exact .inr (.inl h)
  · rcases sq_eq_sq_iff_eq_or_eq_neg.mp (sub_eq_zero.mp imaginary) with h | h
    · exact .inr (.inr (.inl h))
    · exact .inr (.inr (.inr h))

namespace State

/-- All amplitudes multiplied by one number. -/
noncomputable def scale (s : State ℂ) (ω : ℂ) : State ℂ :=
  s.diagonal fun _ => ω

theorem ofWave_smul (n : Nat) (ω : ℂ) (ψ : Wave) : ofWave n (ω • ψ) = (ofWave n ψ).scale ω := by
  have scaled : (ofWave n ψ).scale ω = ofWave n (ψ.diagonal fun _ => ω) :=
    diagonal_ofWave ψ fun _ => rfl
  rw [scaled]
  congr 1
  funext v
  exact mul_comm ω (ψ v)

end State

/-- **Conjugation is the action of the gates.** Elementary gates between different qubits
conjugate every operator on their qubits. To apply the operator and then the gates is to
apply the gates and then the conjugate, up to a fourth root of one that is the same for
all states. -/
theorem conjugate_acts_on_states {n : Nat} {p : Pauli} (size : p.size = n) {gates : List Gate}
    (elementary : ∀ g ∈ gates, g.isElementary = true ∧ g.fits n = true)
    (distinct : ∀ g ∈ gates, ∀ k, g ≠ .cx k k) :
    ∃ q ω, p.conjugate gates = .ok q ∧ q.size = n ∧
      (ω = 1 ∨ ω = -1 ∨ ω = Complex.I ∨ ω = -Complex.I) ∧
      ∀ s : State ℂ, s.qubits = n → ∃ before behind,
        (s.applyPauli? p).bind (·.applyGates? gates) = some before ∧
        (s.applyGates? gates).bind (·.applyPauli? q) = some behind ∧
        before = behind.scale ω := by
  subst size
  obtain ⟨ω, root, passes⟩ := Wave.gates_pauli elementary distinct
  have unitary : ∀ g ∈ gates, ∀ k id, g ≠ .meas k id := by
    rintro g hg k id rfl
    cases (elementary _ hg).1
  refine ⟨p.through gates, ω, Pauli.conjugate_eq_through elementary, Pauli.size_through ..,
    eq_of_pow_four_eq_one root, ?_⟩
  intro s qubits
  have ran : ∀ ψ, (State.ofWave p.size ψ).applyGates? gates =
      some (State.ofWave p.size (ψ.gates gates)) :=
    fun ψ => State.applyGates?_ofWave ψ (fun g hg => (elementary g hg).2) unitary
  refine ⟨State.ofWave p.size ((s.wave.pauli p).gates gates),
    State.ofWave p.size ((s.wave.gates gates).pauli (p.through gates)), ?_, ?_, ?_⟩
  · conv_lhs => rw [← s.ofWave_wave, qubits]
    rw [State.applyPauli?_ofWave _ (Nat.le_refl _), Option.bind_some, ran]
  · conv_lhs => rw [← s.ofWave_wave, qubits]
    rw [ran, Option.bind_some, State.applyPauli?_ofWave _ (by rw [Pauli.size_through])]
  · rw [passes, State.ofWave_smul]

/-- A Y and an X come out as a single Z: the S gate makes an X of the Y, the CX gate
cancels the X on its target, and the H gate turns the one that is left. -/
theorem conjugate_acts_on_y_and_x :
    let p : Pauli := ⟨[.Y, .X]⟩
    let gates : List Gate := [.s 0, .cx 0 1, .h 0]
    p.conjugate gates = .ok ⟨[.Z, .I]⟩ ∧
    ∃ ω, (ω = 1 ∨ ω = -1 ∨ ω = Complex.I ∨ ω = -Complex.I) ∧
      ∀ s : State ℂ, s.qubits = 2 → ∃ before behind,
        (s.applyPauli? p).bind (·.applyGates? gates) = some before ∧
        (s.applyGates? gates).bind (·.applyPauli? ⟨[.Z, .I]⟩) = some behind ∧
        before = behind.scale ω := by
  intro p gates
  have conjugate : p.conjugate gates = .ok ⟨[.Z, .I]⟩ := rfl
  have elementary : ∀ g ∈ gates, g.isElementary = true ∧ g.fits 2 = true := by decide
  have distinct : ∀ g ∈ gates, ∀ k, g ≠ .cx k k := by simp [gates]
  obtain ⟨q, ω, found, -, root, acts⟩ :=
    conjugate_acts_on_states (p := p) rfl elementary distinct
  cases conjugate.symm.trans found
  exact ⟨conjugate, ω, root, acts⟩

end HadamardFree
