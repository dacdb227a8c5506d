import HadamardFree.Network.Basic
import HadamardFree.Pauli.Conjugation

/-!
# Operators carried through gates

Gates that are elementary and in range carry every operator of the size to
another one. `Pauli.through` is the operator reached; the lemmas here let other
proofs follow an operator gate by gate.
-/

namespace HadamardFree

/-- The gates that act on the Pauli operators of `n` qubits. -/
def Gate.Carries (n : Nat) (g : Gate) : Prop :=
  g.isElementary = true ∧ g.fits n = true

namespace Pauli

/-- The operator that is reached when `p` is conjugated by the gates in order. -/
def through (p : Pauli) (gates : List Gate) : Pauli :=
  (p.advance gates).1

/-- The operator behind a single gate. -/
def past (p : Pauli) (g : Gate) : Pauli :=
  p.through [g]

theorem conjugateGate_eq_past {p : Pauli} {g : Gate} (h : g.Carries p.size) :
    p.conjugateGate g = .ok (p.past g) := by
  obtain ⟨q, hq⟩ := (p.conjugateGate_isOk g).mpr h
  simp [past, through, advance, hq]

@[simp] theorem through_nil (p : Pauli) : p.through [] = p := rfl

theorem through_cons {p : Pauli} {g : Gate} (h : g.Carries p.size) (gates : List Gate) :
    p.through (g :: gates) = (p.past g).through gates := by
  rw [through, advance, conjugateGate_eq_past h]
  rfl

@[simp] theorem size_through (p : Pauli) (gates : List Gate) : (p.through gates).size = p.size := by
  induction gates generalizing p with
  | nil => rfl
  | cons g gates ih =>
    rw [through, advance]
    cases hq : p.conjugateGate g with
    | ok q => exact (ih q).trans (size_of_conjugateGate hq)
    | error e => rfl

@[simp] theorem size_past (p : Pauli) (g : Gate) : (p.past g).size = p.size :=
  size_through p [g]

theorem through_append {p : Pauli} {gates : List Gate} (h : ∀ g ∈ gates, g.Carries p.size)
    (more : List Gate) : p.through (gates ++ more) = (p.through gates).through more := by
  induction gates generalizing p with
  | nil => rfl
  | cons g gates ih =>
    have first : g.Carries p.size := h g (List.mem_cons_self ..)
    have rest : ∀ g' ∈ gates, g'.Carries (p.past g).size := by
      intro g' hg'
      rw [size_past]
      exact h g' (List.mem_cons_of_mem _ hg')
    rw [List.cons_append, through_cons first, through_cons first, ih rest]

theorem conjugate_eq_through {p : Pauli} {gates : List Gate} (h : ∀ g ∈ gates, g.Carries p.size) :
    p.conjugate gates = .ok (p.through gates) := by
  induction gates generalizing p with
  | nil => rfl
  | cons g gates ih =>
    have first : g.Carries p.size := h g (List.mem_cons_self ..)
    rw [conjugate_cons, conjugateGate_eq_past first, through_cons first]
    apply ih
    intro g' hg'
    rw [size_past]
    exact h g' (List.mem_cons_of_mem _ hg')

/-! ## What each gate does to the letters -/

theorem past_h {p : Pauli} {k : Nat} (h : k < p.size) :
    p.past (.h k) = p.modify k Letter.hadamard := by
  simp [past, through, advance, conjugateGate, h]

theorem past_s {p : Pauli} {k : Nat} (h : k < p.size) :
    p.past (.s k) = p.modify k Letter.phase := by
  simp [past, through, advance, conjugateGate, h]

theorem past_cx {p : Pauli} {c t : Nat} (hc : c < p.size) (ht : t < p.size) :
    p.past (.cx c t) = p.conjugateCX c t := by
  simp [past, through, advance, conjugateGate, hc, ht]

theorem letter_single {n k : Nat} (a : Letter) (h : k < n) (j : Nat) :
    (single n k a).letter j = if j = k then a else .I := by
  by_cases hj : j < n
  · by_cases hk : j = k
    · subst hk
      simp [letter, single, List.getD_eq_getElem?_getD, hj]
    · simp [letter, single, List.getD_eq_getElem?_getD, hj, hk, Ne.symm hk]
  · rw [letter_of_size_le (by simpa using hj), if_neg (by omega)]

/-- A CX gate between different qubits: the target takes the X part of the
control, and the control the Z part of the target. -/
theorem letter_conjugateCX {p : Pauli} {c t : Nat} (hc : c < p.size) (ht : t < p.size)
    (distinct : c ≠ t) (j : Nat) :
    (p.conjugateCX c t).letter j =
      if j = t then .ofBits ((p.letter t).x ^^ (p.letter c).x) (p.letter t).z
      else if j = c then .ofBits (p.letter c).x ((p.letter c).z ^^ (p.letter t).z)
      else p.letter j := by
  have control : ∀ j, (p.multiply c (p.letter t).zPart).letter j =
      if j = c then (p.letter c).times (p.letter t).zPart else p.letter j := by
    intro j
    rw [multiply, letter_modify]
    by_cases hj : j = c <;> simp [hj, hc]
  rw [conjugateCX]
  simp only [multiply] at control ⊢
  rw [letter_modify, control, control, size_modify]
  by_cases hj : j = t
  · subst hj
    simp [ht, Ne.symm distinct, Letter.times, Letter.zPart, Letter.xPart]
  · by_cases hjc : j = c
    · simp [hjc, distinct, Letter.times, Letter.zPart]
    · simp [hj, hjc]

end Pauli

end HadamardFree
