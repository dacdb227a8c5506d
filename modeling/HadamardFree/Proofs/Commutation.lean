import HadamardFree.Proofs.CliffordAction

/-!
# Commutation

Whether two operators commute is read off their letters. On states it decides what becomes of
the order in which the operators are applied.

* `State.applyPauli?_bind`: one operator after another;
* `Wave.pauli_ne_zero`: an operator takes no amplitude away;
* `commutes_decides_order`: the two orders agree up to a sign, which is the one that the letters
  tell.
-/

namespace HadamardFree

theorem State.applyPauli?_bind {n : Nat} {p q : Pauli} (hp : p.size ≤ n) (hq : q.size ≤ n)
    (ψ : Wave) :
    ((ofWave n ψ).applyPauli? p).bind (·.applyPauli? q) = some (ofWave n ((ψ.pauli p).pauli q)) := by
  rw [applyPauli?_ofWave ψ hp, Option.bind_some, applyPauli?_ofWave _ hq]

/-- An operator only moves amplitudes and changes their signs. -/
theorem Wave.pauli_ne_zero {ψ : Wave} (h : ∀ v, ψ v ≠ 0) (p : Pauli) : ∀ v, pauli p ψ v ≠ 0 := by
  intro v
  have sign_ne_zero : sign (zParity p (shift p v)) ≠ 0 := by
    intro zero
    have square := sign_mul_self (zParity p (shift p v))
    rw [zero, zero_mul] at square
    exact zero_ne_one square
  exact mul_ne_zero sign_ne_zero (h _)

/-- A state without zero amplitudes is not its own negative. -/
theorem State.scale_neg_one_ne {ψ : Wave} (h : ∀ v, ψ v ≠ 0) (n : Nat) :
    (ofWave n ψ).scale (-1) ≠ ofWave n ψ := by
  intro same
  have inside : 0 < 1 <<< n := by simp [Nat.one_shiftLeft]
  rw [← ofWave_smul] at same
  have amps := congrArg (·.amp 0) same
  simp only [amp_ofWave _ inside, neg_smul, one_smul, Pi.neg_apply] at amps
  exact h _ (neg_eq_self.mp amps)

/-- **Letters decide the order of operators.** Two operators that are not longer than a state act
on it in either order. The results are equal up to a sign, which is a minus exactly if the letters
say that the operators do not commute; so the order makes no difference to any state exactly if
they say that the operators do. -/
theorem commutes_decides_order {n : Nat} {p q : Pauli} (hp : p.size ≤ n) (hq : q.size ≤ n) :
    (∀ s : State ℂ, s.qubits = n → ∃ pThenQ qThenP,
      (s.applyPauli? p).bind (·.applyPauli? q) = some pThenQ ∧
      (s.applyPauli? q).bind (·.applyPauli? p) = some qThenP ∧
      pThenQ = qThenP.scale (if p.commutes q then 1 else -1)) ∧
    (p.commutes q = true ↔ ∀ s : State ℂ, s.qubits = n →
      (s.applyPauli? p).bind (·.applyPauli? q) = (s.applyPauli? q).bind (·.applyPauli? p)) := by
  have orders : ∀ ψ : Wave, State.ofWave n ((ψ.pauli p).pauli q) =
      (State.ofWave n ((ψ.pauli q).pauli p)).scale (if p.commutes q then 1 else -1) := by
    intro ψ
    have sign : Wave.sign (!p.commutes q) = if p.commutes q then 1 else -1 := by
      cases p.commutes q <;> rfl
    rw [Wave.pauli_comm, State.ofWave_smul, sign]
  have waves : ∀ s : State ℂ, s.qubits = n → ∃ ψ, s = State.ofWave n ψ := by
    rintro s rfl
    exact ⟨s.wave, s.ofWave_wave.symm⟩
  refine ⟨?_, ?_, ?_⟩
  · intro s qubits
    obtain ⟨ψ, rfl⟩ := waves s qubits
    exact ⟨_, _, State.applyPauli?_bind hp hq ψ, State.applyPauli?_bind hq hp ψ, orders ψ⟩
  · intro commutes s qubits
    obtain ⟨ψ, rfl⟩ := waves s qubits
    rw [State.applyPauli?_bind hp hq, State.applyPauli?_bind hq hp, Wave.pauli_comm, commutes]
    simp
  · intro same
    by_contra clash
    -- A state without zero amplitudes tells the two orders apart.
    let ones : Wave := fun _ => 1
    have equal := same (State.ofWave n ones) rfl
    rw [State.applyPauli?_bind hp hq, State.applyPauli?_bind hq hp, Option.some.injEq, orders,
      if_neg clash] at equal
    have nonzero : ∀ v, (ones.pauli q).pauli p v ≠ 0 :=
      Wave.pauli_ne_zero (Wave.pauli_ne_zero (fun _ => one_ne_zero) q) p
    exact State.scale_neg_one_ne nonzero n equal

/-- The operators agree in their Y, clash in the second letter, and the third letter of the longer
one meets nothing. -/
theorem commutes_decides_order_of_one_clash :
    let p : Pauli := ⟨[.Y, .Z]⟩
    let q : Pauli := ⟨[.Y, .X, .Z]⟩
    p.commutes q = false ∧ ∀ s : State ℂ, s.qubits = 3 → ∃ pThenQ qThenP,
      (s.applyPauli? p).bind (·.applyPauli? q) = some pThenQ ∧
      (s.applyPauli? q).bind (·.applyPauli? p) = some qThenP ∧ pThenQ = qThenP.scale (-1) := by
  intro p q
  have hp : p.size ≤ 3 := by decide
  have hq : q.size ≤ 3 := by decide
  exact ⟨by decide, (commutes_decides_order hp hq).1⟩

end HadamardFree
