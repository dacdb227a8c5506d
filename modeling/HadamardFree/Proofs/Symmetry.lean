import HadamardFree.Proofs.Conjugation
import HadamardFree.Proofs.Parity
import Mathlib.Data.Set.Function

/-!
# Conjugation is a symmetry

Gates in range, none of them a CX gate whose qubits agree, permute the operators of a size and
keep what is said about pairs of them:

* `Pauli.conjugate_eq_ok_iff`: the lists of gates that an operator passes;
* `Pauli.past_past`, `Pauli.through_reverse`: every gate undoes itself, so a list of gates is
  undone by the same gates in reverse order;
* `Pauli.bijOn_through`: the gates permute the operators of their size;
* `Pauli.commutes_past`, `Pauli.commutes_through`: behind a gate, and behind a list of gates,
  operators commute exactly if they did before;
* `conjugation_keeps_commutation`, `conjugation_is_reversible`: the same for conjugation as it is
  computed.
-/

namespace HadamardFree

open Function (update)

namespace Letter

theorem hadamard_hadamard (a : Letter) : a.hadamard.hadamard = a := by
  cases a <;> rfl

theorem phase_phase (a : Letter) : a.phase.phase = a := by
  cases a <;> rfl

theorem anticommutes_hadamard (a b : Letter) :
    a.hadamard.anticommutes b.hadamard = a.anticommutes b := by
  cases a <;> cases b <;> rfl

theorem anticommutes_phase (a b : Letter) : a.phase.anticommutes b.phase = a.anticommutes b := by
  cases a <;> cases b <;> rfl

/-- The letters on the control of a CX gate, where `b` and `b'` are those on the target. -/
theorem anticommutes_control (a b a' b' : Letter) :
    (ofBits a.x (a.z ^^ b.z)).anticommutes (ofBits a'.x (a'.z ^^ b'.z)) =
      (a.anticommutes a' ^^ ((a.x && b'.z) ^^ (b.z && a'.x))) := by
  simp only [anticommutes_eq_bits, x_ofBits, z_ofBits]
  cases a.x <;> cases a'.x <;> cases b.z <;> cases b'.z <;> simp

/-- The letters on the target of a CX gate, where `a` and `a'` are those on the control. -/
theorem anticommutes_target (a b a' b' : Letter) :
    (ofBits (b.x ^^ a.x) b.z).anticommutes (ofBits (b'.x ^^ a'.x) b'.z) =
      (b.anticommutes b' ^^ ((a.x && b'.z) ^^ (b.z && a'.x))) := by
  simp only [anticommutes_eq_bits, x_ofBits, z_ofBits]
  cases a.x <;> cases a'.x <;> cases b.z <;> cases b'.z <;> simp

end Letter

namespace Gate

theorem carries_h_iff {n k : Nat} : (h k).Carries n ↔ k < n := by
  simp [Carries, isElementary, fits, qubits]

theorem carries_s_iff {n k : Nat} : (s k).Carries n ↔ k < n := by
  simp [Carries, isElementary, fits, qubits]

theorem carries_cx_iff {n c t : Nat} : (cx c t).Carries n ↔ c < n ∧ t < n := by
  simp [Carries, isElementary, fits, qubits]

end Gate

namespace Pauli

variable {p q : Pauli}

/-! ## Which gates an operator passes -/

theorem carries_of_conjugate {gates : List Gate} (h : p.conjugate gates = .ok q) :
    ∀ g ∈ gates, g.Carries p.size := by
  induction gates generalizing p with
  | nil => exact List.forall_mem_nil _
  | cons g gates ih =>
    rw [conjugate_cons] at h
    cases first : p.conjugateGate g with
    | error e =>
      rw [first] at h
      cases h
    | ok p' =>
      rw [first] at h
      have carries : g.Carries p.size := (p.conjugateGate_isOk g).mp ⟨p', first⟩
      have rest := ih h
      rw [size_of_conjugateGate first] at rest
      exact List.forall_mem_cons.mpr ⟨carries, rest⟩

/-- An operator passes the gates that are elementary and in range, and no others. -/
theorem conjugate_eq_ok_iff {gates : List Gate} :
    p.conjugate gates = .ok q ↔ (∀ g ∈ gates, g.Carries p.size) ∧ q = p.through gates := by
  constructor
  · intro h
    have carries := carries_of_conjugate h
    rw [conjugate_eq_through carries] at h
    cases h
    exact ⟨carries, rfl⟩
  · rintro ⟨carries, rfl⟩
    exact conjugate_eq_through carries

/-! ## Gates undo themselves -/

theorem modify_of_involutive {f : Letter → Letter} (undo : ∀ a, f (f a) = a) (p : Pauli) (k : Nat) :
    (p.modify k f).modify k f = p := by
  apply ext_letter (by simp)
  intro j _
  simp only [letter_modify, size_modify]
  by_cases own : j = k ∧ k < p.size
  · simp only [own, and_self, if_true, undo]
  · simp only [own, if_false]

theorem conjugateCX_conjugateCX {c t : Nat} (hc : c < p.size) (ht : t < p.size)
    (distinct : c ≠ t) : (p.conjugateCX c t).conjugateCX c t = p := by
  have letters := letter_conjugateCX hc ht distinct
  apply ext_letter (by simp)
  intro j _
  rw [letter_conjugateCX (by simpa using hc) (by simpa using ht) distinct]
  simp only [letters, distinct, if_true, if_false, Letter.x_ofBits, Letter.z_ofBits]
  -- What the target took from the control, and the control from the target, is taken once more.
  by_cases target : j = t
  · subst target
    simp
  · by_cases control : j = c
    · subst control
      simp [distinct]
    · simp [target, control]

theorem past_past {g : Gate} (carries : g.Carries p.size) (distinct : ∀ k, g ≠ .cx k k) :
    (p.past g).past g = p := by
  cases g with
  | h k =>
    have hk := Gate.carries_h_iff.mp carries
    rw [past_h hk, past_h (by simpa using hk)]
    exact modify_of_involutive Letter.hadamard_hadamard p k
  | s k =>
    have hk := Gate.carries_s_iff.mp carries
    rw [past_s hk, past_s (by simpa using hk)]
    exact modify_of_involutive Letter.phase_phase p k
  | cx c t =>
    obtain ⟨hc, ht⟩ := Gate.carries_cx_iff.mp carries
    have other : c ≠ t := fun same => distinct c (by rw [same])
    rw [past_cx hc ht, past_cx (by simpa using hc) (by simpa using ht)]
    exact conjugateCX_conjugateCX hc ht other
  | cz | meas => cases carries.1

/-- The gates in reverse order lead back. -/
theorem through_reverse {gates : List Gate} (carries : ∀ g ∈ gates, g.Carries p.size)
    (distinct : ∀ g ∈ gates, ∀ k, g ≠ .cx k k) : (p.through gates).through gates.reverse = p := by
  induction gates generalizing p with
  | nil => rfl
  | cons g gates ih =>
    rw [List.forall_mem_cons] at carries distinct
    have rest : ∀ g' ∈ gates, g'.Carries (p.past g).size := by simpa using carries.2
    have back : ∀ g' ∈ gates.reverse, g'.Carries ((p.past g).through gates).size := by
      simpa using carries.2
    calc (p.through (g :: gates)).through (g :: gates).reverse
        = ((p.past g).through gates).through (gates.reverse ++ [g]) := by
          rw [through_cons carries.1, List.reverse_cons]
      _ = (((p.past g).through gates).through gates.reverse).past g := through_append back [g]
      _ = (p.past g).past g := by rw [ih rest distinct.2]
      _ = p := past_past carries.1 distinct.1

theorem conjugate_reverse {gates : List Gate} (distinct : ∀ g ∈ gates, ∀ k, g ≠ .cx k k)
    (h : p.conjugate gates = .ok q) : q.conjugate gates.reverse = .ok p := by
  obtain ⟨carries, rfl⟩ := conjugate_eq_ok_iff.mp h
  have back : ∀ g ∈ gates.reverse, g.Carries (p.through gates).size := by simpa using carries
  rw [conjugate_eq_through back, through_reverse carries distinct]

theorem bijOn_through {n : Nat} {gates : List Gate} (carries : ∀ g ∈ gates, g.Carries n)
    (distinct : ∀ g ∈ gates, ∀ k, g ≠ .cx k k) :
    Set.BijOn (fun p => through p gates) {p | p.size = n} {p | p.size = n} := by
  have inverse : Set.InvOn (fun p => through p gates.reverse) (fun p => through p gates)
      {p | p.size = n} {p | p.size = n} := by
    constructor
    · rintro p rfl
      exact through_reverse carries distinct
    · rintro p rfl
      have carriesBack : ∀ g ∈ gates.reverse, g.Carries p.size := by simpa using carries
      have undo := through_reverse carriesBack (by simpa using distinct)
      rwa [List.reverse_reverse] at undo
  apply inverse.bijOn
  · rintro p rfl
    exact size_through p gates
  · rintro p rfl
    exact size_through p gates.reverse

/-! ## Gates keep commutation -/

theorem commutes_eq_parity_anticommutes (p q : Pauli) :
    p.commutes q = !parity (min p.size q.size) fun k =>
      (p.letter k).anticommutes (q.letter k) := by
  simp only [Letter.anticommutes_eq_bits]
  exact commutes_eq_parity (Nat.le_refl _)

theorem commutes_modify {f : Letter → Letter}
    (keeps : ∀ a b, (f a).anticommutes (f b) = a.anticommutes b) {k : Nat} (hp : k < p.size)
    (hq : k < q.size) : (p.modify k f).commutes (q.modify k f) = p.commutes q := by
  simp only [commutes_eq_parity_anticommutes, size_modify, letter_modify, hp, hq, and_true]
  congr 1
  apply parity_congr
  intro j _
  by_cases own : j = k
  · simp only [own, if_true, keeps]
  · simp only [own, if_false]

/-- Both the control and the target may begin or cease to anticommute. They do so together. -/
theorem commutes_conjugateCX {c t : Nat} (hcp : c < p.size) (htp : t < p.size) (hcq : c < q.size)
    (htq : t < q.size) (distinct : c ≠ t) :
    (p.conjugateCX c t).commutes (q.conjugateCX c t) = p.commutes q := by
  let clash : Nat → Bool := fun j => (p.letter j).anticommutes (q.letter j)
  let change : Bool := ((p.letter c).x && (q.letter t).z) ^^ ((p.letter t).z && (q.letter c).x)
  have moved : (fun j => ((p.conjugateCX c t).letter j).anticommutes
        ((q.conjugateCX c t).letter j)) =
      update (update clash c (clash c ^^ change)) t (clash t ^^ change) := by
    funext j
    rw [letter_conjugateCX hcp htp distinct, letter_conjugateCX hcq htq distinct]
    by_cases target : j = t
    · subst target
      simp only [if_true, Function.update_self]
      exact Letter.anticommutes_target ..
    · by_cases control : j = c
      · subst control
        simp only [target, if_true, if_false, Function.update_of_ne distinct, Function.update_self]
        exact Letter.anticommutes_control ..
      · simp [target, control, clash]
  have hc : c < min p.size q.size := Nat.lt_min.mpr ⟨hcp, hcq⟩
  have ht : t < min p.size q.size := Nat.lt_min.mpr ⟨htp, htq⟩
  rw [commutes_eq_parity_anticommutes, commutes_eq_parity_anticommutes, size_conjugateCX,
    size_conjugateCX, moved, parity_update _ _ ht, parity_update _ _ hc,
    Function.update_of_ne (Ne.symm distinct)]
  -- The parity changes by the same bit twice.
  cases change <;> simp [clash]

theorem commutes_past {g : Gate} (hp : g.Carries p.size) (hq : g.Carries q.size)
    (distinct : ∀ k, g ≠ .cx k k) : (p.past g).commutes (q.past g) = p.commutes q := by
  cases g with
  | h k =>
    have hkp := Gate.carries_h_iff.mp hp
    have hkq := Gate.carries_h_iff.mp hq
    rw [past_h hkp, past_h hkq]
    exact commutes_modify Letter.anticommutes_hadamard hkp hkq
  | s k =>
    have hkp := Gate.carries_s_iff.mp hp
    have hkq := Gate.carries_s_iff.mp hq
    rw [past_s hkp, past_s hkq]
    exact commutes_modify Letter.anticommutes_phase hkp hkq
  | cx c t =>
    obtain ⟨hcp, htp⟩ := Gate.carries_cx_iff.mp hp
    obtain ⟨hcq, htq⟩ := Gate.carries_cx_iff.mp hq
    have other : c ≠ t := fun same => distinct c (by rw [same])
    rw [past_cx hcp htp, past_cx hcq htq]
    exact commutes_conjugateCX hcp htp hcq htq other
  | cz | meas => cases hp.1

theorem commutes_through {gates : List Gate} (hp : ∀ g ∈ gates, g.Carries p.size)
    (hq : ∀ g ∈ gates, g.Carries q.size) (distinct : ∀ g ∈ gates, ∀ k, g ≠ .cx k k) :
    (p.through gates).commutes (q.through gates) = p.commutes q := by
  induction gates generalizing p q with
  | nil => rfl
  | cons g gates ih =>
    rw [List.forall_mem_cons] at hp hq distinct
    have restP : ∀ g' ∈ gates, g'.Carries (p.past g).size := by simpa using hp.2
    have restQ : ∀ g' ∈ gates, g'.Carries (q.past g).size := by simpa using hq.2
    rw [through_cons hp.1, through_cons hq.1, ih restP restQ distinct.2]
    exact commutes_past hp.1 hq.1 distinct.1

end Pauli

/-- **Conjugation keeps commutation.** Two operators, be they of one size or not, that both pass a
list of gates commute behind it exactly if they commute in front of it. -/
theorem conjugation_keeps_commutation {p q p' q' : Pauli} {gates : List Gate}
    (distinct : ∀ g ∈ gates, ∀ k, g ≠ .cx k k) (hp : p.conjugate gates = .ok p')
    (hq : q.conjugate gates = .ok q') : p'.commutes q' = p.commutes q := by
  obtain ⟨carriesP, rfl⟩ := Pauli.conjugate_eq_ok_iff.mp hp
  obtain ⟨carriesQ, rfl⟩ := Pauli.conjugate_eq_ok_iff.mp hq
  exact Pauli.commutes_through carriesP carriesQ distinct

/-- The operators clash on one qubit in front of the gates, and on three behind them. The fourth
letter of the longer one meets nothing. -/
theorem conjugation_keeps_commutation_of_clashes :
    let gates : List Gate := [.h 1, .cx 0 2, .s 2, .cx 2 1]
    let p : Pauli := ⟨[.X, .Y, .Z]⟩
    let q : Pauli := ⟨[.Y, .I, .Z, .X]⟩
    let p' : Pauli := ⟨[.Y, .Z, .Y]⟩
    let q' : Pauli := ⟨[.X, .X, .X, .X]⟩
    p.conjugate gates = .ok p' ∧ q.conjugate gates = .ok q' ∧ p.clashes q = 1 ∧
      p'.clashes q' = 3 ∧ p'.commutes q' = p.commutes q := by
  intro gates p q p' q'
  have distinct : ∀ g ∈ gates, ∀ k, g ≠ .cx k k := by simp [gates]
  have hp : p.conjugate gates = .ok p' := by decide
  have hq : q.conjugate gates = .ok q' := by decide
  exact ⟨hp, hq, by decide, by decide, conjugation_keeps_commutation distinct hp hq⟩

/-- **Conjugation is reversible.** An operator keeps its size behind a list of gates, and the same
gates in reverse order lead back to it, letter by letter. So the gates permute the operators of a
size, if one operator of this size passes them. -/
theorem conjugation_is_reversible {gates : List Gate}
    (distinct : ∀ g ∈ gates, ∀ k, g ≠ .cx k k) :
    (∀ p q : Pauli, p.conjugate gates = .ok q →
      q.size = p.size ∧ q.conjugate gates.reverse = .ok p) ∧
    ∀ n, (∃ p q : Pauli, p.size = n ∧ p.conjugate gates = .ok q) →
      ∃ f : Pauli → Pauli, (∀ p : Pauli, p.size = n → p.conjugate gates = .ok (f p)) ∧
        Set.BijOn f {p | p.size = n} {p | p.size = n} := by
  constructor
  · intro p q conjugated
    have size : q.size = p.size := by
      rw [(Pauli.conjugate_eq_ok_iff.mp conjugated).2, Pauli.size_through]
    exact ⟨size, Pauli.conjugate_reverse distinct conjugated⟩
  · rintro n ⟨p, q, rfl, conjugated⟩
    have carries := Pauli.carries_of_conjugate conjugated
    refine ⟨(·.through gates), ?_, Pauli.bijOn_through carries distinct⟩
    intro p' size
    exact Pauli.conjugate_eq_through (size ▸ carries)

/-- A Y is spread over all three qubits and turned on two of them, and comes back. -/
theorem conjugation_is_reversible_of_y :
    let gates : List Gate := [.cx 1 0, .s 1, .cx 0 2, .h 2]
    let p : Pauli := ⟨[.I, .Y, .I]⟩
    let q : Pauli := ⟨[.X, .X, .Z]⟩
    p.conjugate gates = .ok q ∧ q.conjugate [.h 2, .cx 0 2, .s 1, .cx 1 0] = .ok p ∧
    ∃ f : Pauli → Pauli, (∀ p : Pauli, p.size = 3 → p.conjugate gates = .ok (f p)) ∧
      Set.BijOn f {p | p.size = 3} {p | p.size = 3} := by
  intro gates p q
  have distinct : ∀ g ∈ gates, ∀ k, g ≠ .cx k k := by simp [gates]
  have conjugated : p.conjugate gates = .ok q := by decide
  obtain ⟨undone, permuted⟩ := conjugation_is_reversible distinct
  exact ⟨conjugated, (undone p q conjugated).2, permuted 3 ⟨p, q, rfl, conjugated⟩⟩

end HadamardFree
