import HadamardFree.Proofs.PauliAction
import HadamardFree.Proofs.Teleportation

/-!
# Runs under other outcomes

The X that an outcome leaves behind an H gate can be carried to the end of the run.
There it is a Pauli operator, and on its way it has turned some rotations the other
way:

* `Op.branch_pauli`: an operator in front of a run;
* `Op.branch_eq_correct`: the run under given outcomes is the run without them, with
  other angles and with operators behind it;
* `Wave.correct_correct`: applying these operators again undoes them.

All this holds up to a fourth root of one.
-/

namespace HadamardFree

/-- A gate or rotation that acts on `n` qubits: an elementary gate between different
qubits, or a diagonal axis. -/
def Op.Fits (n : Nat) : Op → Prop
  | .gate _ g => g.Carries n ∧ ∀ k, g ≠ .cx k k
  | .rotation _ axis _ => axis.size = n ∧ axis.isDiagonal = true

theorem Pauli.isDiagonal_iff {p : Pauli} :
    p.isDiagonal = true ↔ ∀ k, (p.letter k).x = false := by
  have entry : ∀ k (hk : k < p.letters.length), p.letter k = p.letters[k] := by
    intro k hk
    simp [letter, List.getD_eq_getElem?_getD, hk]
  rw [isDiagonal, List.all_eq_true]
  constructor
  · intro h k
    by_cases hk : k < p.letters.length
    · simpa [entry k hk, Letter.isDiagonal_eq_not_x] using h _ (List.getElem_mem hk)
    · rw [letter_of_size_le (Nat.le_of_not_lt hk)]
      rfl
  · intro h a ha
    obtain ⟨k, hk, rfl⟩ := List.getElem_of_mem ha
    rw [Letter.isDiagonal_eq_not_x, ← entry k hk, h k]
    rfl

@[simp] theorem State.signed_false (angle : ℝ) : signed false angle = angle := rfl

theorem State.signed_signed (a b : Bool) (angle : ℝ) :
    signed a (signed b angle) = signed (a ^^ b) angle := by
  cases a <;> cases b <;> simp [signed]

@[simp] theorem Wave.flipIf_false (k : Nat) (ψ : Wave) : ψ.flipIf false k = ψ := by
  funext v
  simp [flipIf]

theorem Wave.flipIf_smul (b : Bool) (k : Nat) (ω : ℂ) (ψ : Wave) :
    flipIf b k (ω • ψ) = ω • flipIf b k ψ :=
  rfl

namespace Op

theorem branch_smul (n : Nat) (angle : Nat → ℝ) (ops : List Op) (outcomes : List Bool) (ω : ℂ)
    (ψ : Wave) : branch n angle ops outcomes (ω • ψ) = ω • branch n angle ops outcomes ψ := by
  induction ops generalizing outcomes ψ with
  | nil => rfl
  | cons op ops ih =>
    cases op with
    | gate step g =>
      cases g with
      | h q => rw [branch, Wave.hadamard_smul, Wave.flipIf_smul, ih, branch]
      | s | cx | cz | meas => rw [branch_gate rfl, Wave.gate_smul, ih, branch_gate rfl]
    | rotation k axis sign => rw [branch, Wave.rotate, Wave.diagonal_smul, ih, branch, Wave.rotate]

/-- Without outcomes an H gate is a gate like the others. -/
theorem branch_gate_nil (n : Nat) (angle : Nat → ℝ) (step : Nat) (g : Gate) (ops : List Op)
    (ψ : Wave) : branch n angle (.gate step g :: ops) [] ψ = branch n angle ops [] (ψ.gate g) := by
  cases g with
  | h q =>
    rw [branch, List.headD_nil, Wave.flipIf_false]
    rfl
  | s | cx | cz | meas => rfl

/-- Only the angles of the rotations in the list count. -/
theorem branch_congr {n : Nat} {angle angle' : Nat → ℝ} {ops : List Op}
    (h : ∀ k ∈ ops.filterMap rotation?, angle k = angle' k) (outcomes : List Bool) (ψ : Wave) :
    branch n angle ops outcomes ψ = branch n angle' ops outcomes ψ := by
  induction ops generalizing outcomes ψ with
  | nil => rfl
  | cons op ops ih =>
    cases op with
    | gate step g =>
      cases g with
      | h q => exact ih h _ _
      | s | cx | cz | meas => exact ih h _ _
    | rotation k axis sign =>
      rw [rotations_cons, List.forall_mem_cons] at h
      rw [branch, branch, h.1, ih h.2]

theorem flips_subset (p : Pauli) (ops : List Op) :
    ∀ k ∈ flips p ops, k ∈ ops.filterMap rotation? := by
  induction ops generalizing p with
  | nil => exact fun k hk => hk
  | cons op ops ih =>
    intro k hk
    cases op with
    | gate step g => exact ih (p.past g) k hk
    | rotation j axis sign =>
      rw [rotations_cons]
      rw [flips] at hk
      split at hk
      · exact List.mem_cons_of_mem _ (ih p k hk)
      · rcases List.mem_cons.mp hk with rfl | later
        · exact List.mem_cons_self ..
        · exact List.mem_cons_of_mem _ (ih p k later)

/-- The angles where the listed rotations turn the other way. -/
noncomputable def turned (flips : List Nat) (angle : Nat → ℝ) : Nat → ℝ :=
  fun k => State.signed (flips.contains k) (angle k)

/-- **An operator in front of a run** comes out behind it, carried through all gates,
and turns the rotations it does not commute with. -/
theorem branch_pauli {n : Nat} {ops : List Op} {p : Pauli} (size : p.size = n)
    (fits : ∀ op ∈ ops, op.Fits n) (distinct : (ops.filterMap rotation?).Nodup)
    (angle : Nat → ℝ) :
    ∃ ω : ℂ, ω ^ 4 = 1 ∧ ∀ ψ, branch n angle ops [] (ψ.pauli p) =
      ω • (branch n (turned (flips p ops) angle) ops [] ψ).pauli (p.through (gates ops)) := by
  induction ops generalizing p with
  | nil => exact ⟨1, one_pow 4, fun ψ => (one_smul ℂ _).symm⟩
  | cons op ops ih =>
    rw [List.forall_mem_cons] at fits
    cases op with
    | gate step g =>
      obtain ⟨carries, apart⟩ := fits.1
      rw [← size] at carries
      obtain ⟨ω, root, passes⟩ := Wave.gate_pauli carries apart
      obtain ⟨ω', root', rest⟩ := ih (p := p.past g) (by simpa using size) fits.2 distinct
      refine ⟨ω * ω', by rw [mul_pow, root, root', one_mul], ?_⟩
      intro ψ
      have through : p.through (gates (.gate step g :: ops)) =
          (p.past g).through (gates ops) := Pauli.through_cons carries _
      rw [branch_gate_nil, passes, branch_smul, rest, smul_smul, through, branch_gate_nil]
      rfl
    | rotation k axis sign =>
      obtain ⟨axisSize, isDiagonal⟩ := fits.1
      rw [rotations_cons, List.nodup_cons] at distinct
      obtain ⟨ω, root, rest⟩ := ih size fits.2 distinct.2
      refine ⟨ω, root, ?_⟩
      intro ψ
      have own : turned (flips p (.rotation k axis sign :: ops)) angle k =
          State.signed (!axis.commutes p) (angle k) := by
        have later : k ∉ flips p ops := fun hk => distinct.1 (flips_subset p ops k hk)
        rw [turned, flips]
        cases axis.commutes p <;> simp [later]
      have others : ∀ j ∈ ops.filterMap rotation?, turned (flips p ops) angle j =
          turned (flips p (.rotation k axis sign :: ops)) angle j := by
        intro j hj
        have apart : j ≠ k := fun same => distinct.1 (same ▸ hj)
        rw [turned, turned, flips]
        cases axis.commutes p <;> simp [apart]
      rw [branch, Wave.rotate_pauli (Nat.le_of_eq axisSize)
        (Pauli.isDiagonal_iff.mp isDiagonal), rest, branch_congr others, branch, own]
      rfl

end Op

/-! ## Operators behind a run -/

namespace Wave

/-- Applies the operators whose outcome is 1, in order. -/
noncomputable def correct : List (Pauli × Bool) → Wave → Wave
  | [], ψ => ψ
  | (p, b) :: rest, ψ => correct rest (if b then pauli p ψ else ψ)

theorem correct_smul (l : List (Pauli × Bool)) (ω : ℂ) (ψ : Wave) :
    correct l (ω • ψ) = ω • correct l ψ := by
  induction l generalizing ψ with
  | nil => rfl
  | cons x l ih =>
    obtain ⟨p, b⟩ := x
    cases b with
    | false => exact ih ψ
    | true =>
      rw [correct, if_pos rfl, pauli_smul, ih]
      rfl

theorem sign_pow_four (b : Bool) : sign b ^ 4 = 1 := by
  cases b <;> norm_num

/-- An operator behind a list of operators can come in front of them. -/
theorem pauli_correct (p : Pauli) (l : List (Pauli × Bool)) :
    ∃ ω : ℂ, ω ^ 4 = 1 ∧ ∀ ψ, pauli p (correct l ψ) = ω • correct l (pauli p ψ) := by
  induction l with
  | nil => exact ⟨1, one_pow 4, fun ψ => (one_smul ℂ _).symm⟩
  | cons x l ih =>
    obtain ⟨q, b⟩ := x
    obtain ⟨ω, root, rest⟩ := ih
    cases b with
    | false => exact ⟨ω, root, fun ψ => rest ψ⟩
    | true =>
      refine ⟨ω * sign (!q.commutes p), ?_, ?_⟩
      · rw [mul_pow, root, sign_pow_four, one_mul]
      · intro ψ
        rw [correct, if_pos rfl, rest, pauli_comm q p, correct_smul, smul_smul]
        rfl

/-- Corrections undo themselves. -/
theorem correct_correct (l : List (Pauli × Bool)) :
    ∃ ω : ℂ, ω ^ 4 = 1 ∧ ∀ ψ, correct l (correct l ψ) = ω • ψ := by
  induction l with
  | nil => exact ⟨1, one_pow 4, fun ψ => (one_smul ℂ _).symm⟩
  | cons x l ih =>
    obtain ⟨p, b⟩ := x
    obtain ⟨ω, root, rest⟩ := ih
    cases b with
    | false => exact ⟨ω, root, rest⟩
    | true =>
      obtain ⟨ω', root', front⟩ := pauli_correct p l
      refine ⟨ω' * ω * sign (parity p.size fun k => (p.letter k).z && (p.letter k).x), ?_, ?_⟩
      · rw [mul_pow, mul_pow, root, root', sign_pow_four, one_mul, one_mul]
      · intro ψ
        calc correct ((p, true) :: l) (correct ((p, true) :: l) ψ)
            = correct l (pauli p (correct l (pauli p ψ))) := rfl
          _ = ω' • correct l (correct l (pauli p (pauli p ψ))) := by rw [front, correct_smul]
          _ = ω' • ω • pauli p (pauli p ψ) := by rw [rest]
          _ = _ := by rw [pauli_self, smul_smul, smul_smul]

theorem pauli_single {n q : Nat} (hq : q < n) (ψ : Wave) :
    pauli (.single n q .X) ψ = flipIf true q ψ := by
  have bits : ∀ v, shift (.single n q .X) v = Function.update v q (v q ^^ true) := by
    intro v
    funext k
    by_cases same : k = q
    · subst same
      simp [shift, Pauli.letter_single _ hq, Letter.x]
    · simp [shift, Pauli.letter_single _ hq, same, Letter.x]
  have even : ∀ v, zParity (.single n q .X) v = false := by
    intro v
    apply odd_eq_false
    intro k _
    rw [Pauli.letter_single _ hq]
    split <;> rfl
  funext v
  rw [pauli, even, sign_false, one_mul, bits, flipIf]

end Wave

/-- Whether the outcomes turn rotation `k` the other way, where each H gate counts
with the rotations that the X behind it does not commute with. -/
def Hadamard.turns (n : Nat) (hs : List (Hadamard × Bool)) (k : Nat) : Bool :=
  odd hs fun x => x.2 && (x.1.flips n).contains k

theorem Hadamard.turns_cons (n step q : Nat) (ops : List Op) (b : Bool) (bs : List Bool) (k : Nat) :
    turns n ((ofOps (.gate step (.h q) :: ops)).zip (b :: bs)) k =
      ((b && (Op.flips (.single n q .X) ops).contains k) ^^ turns n ((ofOps ops).zip bs) k) :=
  odd_cons ..

theorem Hadamard.rest_suffix {ops : List Op} {h : Hadamard} (hh : h ∈ ofOps ops) :
    h.rest <:+ ops := by
  induction ops with
  | nil => cases hh
  | cons op ops ih =>
    cases op with
    | gate step g =>
      cases g with
      | h q =>
        rcases List.mem_cons.mp hh with rfl | later
        · exact List.suffix_cons ..
        · exact (ih later).trans (List.suffix_cons ..)
      | s | cx | cz | meas => exact (ih hh).trans (List.suffix_cons ..)
    | rotation k axis sign => exact (ih hh).trans (List.suffix_cons ..)

theorem Hadamard.turns_eq_false {n k : Nat} {ops : List Op} (hk : k ∉ ops.filterMap Op.rotation?)
    (outcomes : List Bool) : turns n ((ofOps ops).zip outcomes) k = false := by
  apply odd_eq_false
  rintro ⟨h, b⟩ hx
  have other : k ∉ h.flips n := by
    intro met
    obtain ⟨front, whole⟩ := rest_suffix (List.of_mem_zip hx).1
    apply hk
    rw [← whole, List.filterMap_append]
    exact List.mem_append_right _ (Op.flips_subset _ _ k met)
  simp [other]

/-- **Outcomes carried to the end.** A run under given outcomes is a run where all
outcomes are 0, with the angles that the outcomes turn, and with the operators that
they leave. -/
theorem Op.branch_eq_correct {n : Nat} {ops : List Op} (fits : ∀ op ∈ ops, op.Fits n)
    (distinct : (ops.filterMap rotation?).Nodup) (angle : Nat → ℝ) (outcomes : List Bool) :
    ∃ ω : ℂ, ω ^ 4 = 1 ∧ ∀ ψ, branch n angle ops outcomes ψ =
      ω • (branch n (fun k => State.signed
          (Hadamard.turns n ((Hadamard.ofOps ops).zip outcomes) k) (angle k)) ops [] ψ).correct
        (((Hadamard.ofOps ops).map (Hadamard.left n)).zip outcomes) := by
  induction ops generalizing outcomes with
  | nil => exact ⟨1, one_pow 4, fun ψ => by simp [Hadamard.ofOps, Wave.correct, branch]⟩
  | cons op ops ih =>
    rw [List.forall_mem_cons] at fits
    cases op with
    | gate step g =>
      cases g with
      | h q =>
        have hq : q < n := by simpa [Gate.fits, Gate.qubits] using fits.1.1.2
        cases outcomes with
        | nil =>
          refine ⟨1, one_pow 4, fun ψ => ?_⟩
          simp [Hadamard.turns, Wave.correct]
        | cons b bs =>
          obtain ⟨ω, root, rest⟩ := ih fits.2 distinct bs
          -- An X that is there is carried through the gates and rotations behind the H gate.
          cases b with
          | false =>
            refine ⟨ω, root, fun ψ => ?_⟩
            simp only [Hadamard.turns_cons, Bool.false_and, Bool.false_xor]
            rw [branch, branch]
            exact rest _
          | true =>
            obtain ⟨ω', root', passes⟩ := branch_pauli (Pauli.size_single n q .X) fits.2 distinct
              fun k => State.signed (Hadamard.turns n ((Hadamard.ofOps ops).zip bs) k) (angle k)
            refine ⟨ω * ω', by rw [mul_pow, root, root', one_mul], fun ψ => ?_⟩
            have both : (fun k => State.signed (Hadamard.turns n
                ((Hadamard.ofOps (.gate step (.h q) :: ops)).zip (true :: bs)) k) (angle k)) =
                turned (flips (.single n q .X) ops) fun k => State.signed
                  (Hadamard.turns n ((Hadamard.ofOps ops).zip bs) k) (angle k) := by
              funext k
              rw [turned, State.signed_signed, Hadamard.turns_cons, Bool.true_and]
            rw [both, branch, List.headD_cons, List.tail_cons, ← Wave.pauli_single hq, rest, passes,
              Wave.correct_smul, smul_smul, branch, List.headD_nil, Wave.flipIf_false]
            rfl
      | s | cx | cz | meas =>
        obtain ⟨ω, root, rest⟩ := ih fits.2 distinct outcomes
        exact ⟨ω, root, fun ψ => rest _⟩
    | rotation k axis sign =>
      rw [rotations_cons, List.nodup_cons] at distinct
      obtain ⟨ω, root, rest⟩ := ih fits.2 distinct.2 outcomes
      refine ⟨ω, root, fun ψ => ?_⟩
      have own : Hadamard.turns n
          ((Hadamard.ofOps (.rotation k axis sign :: ops)).zip outcomes) k = false :=
        Hadamard.turns_eq_false distinct.1 outcomes
      rw [branch, branch, own, State.signed_false, rest]
      rfl

/-- Corrected, a run under given outcomes is a run with the angles that they turn. -/
theorem Op.correct_branch {n : Nat} {ops : List Op} (fits : ∀ op ∈ ops, op.Fits n)
    (distinct : (ops.filterMap rotation?).Nodup) (angle : Nat → ℝ) (outcomes : List Bool) :
    ∃ ω : ℂ, ω ^ 4 = 1 ∧ ∀ ψ, (branch n angle ops outcomes ψ).correct
        (((Hadamard.ofOps ops).map (Hadamard.left n)).zip outcomes) =
      ω • branch n (fun k => State.signed
        (Hadamard.turns n ((Hadamard.ofOps ops).zip outcomes) k) (angle k)) ops [] ψ := by
  obtain ⟨ω, root, carried⟩ := branch_eq_correct fits distinct angle outcomes
  obtain ⟨ω', root', undone⟩ :=
    Wave.correct_correct (((Hadamard.ofOps ops).map (Hadamard.left n)).zip outcomes)
  refine ⟨ω * ω', by rw [mul_pow, root, root', one_mul], fun ψ => ?_⟩
  rw [carried, Wave.correct_smul, undone, smul_smul]

end HadamardFree
