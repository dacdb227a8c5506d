import HadamardFree.Network.Diagonalize
import HadamardFree.Proofs.Branches

/-!
# Operators made diagonal

The piece that the greedy construction finds for an operator, and the networks it
builds:

* `Pauli.x_gather`: the CX gates gather the X part on their control;
* `Pauli.reduction_reduces`: the piece of an operator makes it diagonal, and leaves Z
  on the qubit of its one H gate;
* `Network.ofPaulis_eq`: the construction succeeds for operators of one size.
-/

namespace HadamardFree

/-- A step of `n` qubits with a diagonal axis that is not negated. Its piece is empty,
or it ends with its only H gate, which stands on a qubit where the axis is Z. -/
structure Step.Reduced (n : Nat) (s : Step) : Prop extends s.Carries n where
  sign : s.sign = false
  isDiagonal : s.axis.isDiagonal = true
  distinct : ∀ g ∈ s.piece, ∀ k, g ≠ .cx k k
  turn : s.piece = [] ∨ ∃ before control, s.piece = before ++ [.h control] ∧
    s.axis.letter control = .Z ∧ ∀ g ∈ before, g.isH = false

namespace Gate

theorem carries_h {n k : Nat} (h : k < n) : (Gate.h k).Carries n :=
  ⟨rfl, by simpa [fits, qubits] using h⟩

theorem carries_s {n k : Nat} (h : k < n) : (Gate.s k).Carries n :=
  ⟨rfl, by simpa [fits, qubits] using h⟩

theorem carries_cx {n c t : Nat} (hc : c < n) (ht : t < n) : (Gate.cx c t).Carries n :=
  ⟨rfl, by simpa [fits, qubits] using ⟨hc, ht⟩⟩

end Gate

namespace Pauli

variable {p : Pauli} {control : Nat}

theorem mem_xQubits {k : Nat} : k ∈ p.xQubits ↔ (p.letter k).x = true := by
  rw [xQubits, List.mem_filter, List.mem_range]
  constructor
  · exact And.right
  · intro h
    refine ⟨?_, h⟩
    by_contra outside
    rw [letter_of_size_le (Nat.le_of_not_lt outside)] at h
    cases h

theorem lt_size_of_mem_xQubits {k : Nat} (h : k ∈ p.xQubits) : k < p.size :=
  List.mem_range.mp (List.mem_filter.mp h).1

theorem nodup_xQubits (p : Pauli) : p.xQubits.Nodup :=
  List.nodup_range.filter _

/-! ## Gathering -/

/-- CX gates from a qubit with an X part add an X part to each of their targets. -/
theorem x_gather {targets : List Nat} (hc : control < p.size) (hx : (p.letter control).x = true)
    (inside : ∀ t ∈ targets, t < p.size) (apart : control ∉ targets) (distinct : targets.Nodup)
    (j : Nat) :
    ((p.through (targets.map (.cx control))).letter j).x =
      ((p.letter j).x ^^ decide (j ∈ targets)) := by
  induction targets generalizing p with
  | nil => simp
  | cons t targets ih =>
    rw [List.forall_mem_cons] at inside
    rw [List.mem_cons, not_or] at apart
    rw [List.nodup_cons] at distinct
    have carries : (Gate.cx control t).Carries p.size := Gate.carries_cx hc inside.1
    have letters : ∀ i, ((p.past (.cx control t)).letter i).x =
        ((p.letter i).x ^^ decide (i = t)) := by
      intro i
      rw [past_cx hc inside.1, letter_conjugateCX hc inside.1 apart.1]
      by_cases hi : i = t
      · simp [hi, hx]
      · by_cases hic : i = control <;> simp [hi, hic, apart.1]
    have kept : ((p.past (.cx control t)).letter control).x = true := by
      rw [letters, hx]
      simp [apart.1]
    rw [List.map_cons, through_cons carries,
      ih (by simpa using hc) kept (by simpa using inside.2) apart.2 distinct.2, letters]
    by_cases hj : j = t <;> simp [hj, distinct.1]

/-- An S gate leaves X where the letter is Y. -/
theorem letter_phase {q : Pauli} (hc : control < q.size) (hx : (q.letter control).x = true)
    (j : Nat) :
    (q.through (if (q.letter control).z then [.s control] else [])).letter j =
      if j = control then .X else q.letter j := by
  have bits := (q.letter control).ofBits_x_z
  rw [hx] at bits
  cases hz : (q.letter control).z with
  | false =>
    rw [hz] at bits
    by_cases hj : j = control
    · simp only [hj, if_true, through_nil, Bool.false_eq_true, if_false, ← bits]
      rfl
    · simp [hj]
  | true =>
    rw [hz] at bits
    rw [if_pos rfl, ← past, past_s hc, letter_modify]
    by_cases hj : j = control
    · simp only [hj, hc, and_self, if_true, ← bits]
      rfl
    · simp [hj]

section
variable {targets : List Nat}

theorem reduction_of_gather (gather : p.xQubits = targets ++ [control]) :
    p.reduction = targets.map (.cx control) ++
      (if ((p.through (targets.map (.cx control))).letter control).z then [.s control] else []) ++
      [.h control] := by
  rw [reduction, gather, List.getLast?_concat, List.dropLast_concat]
  rfl

/-- The gates before the H gate of a piece. -/
theorem mem_before {b : Bool} {g : Gate}
    (h : g ∈ targets.map (.cx control) ++ (if b then [.s control] else [])) :
    (∃ t ∈ targets, g = .cx control t) ∨ g = .s control := by
  rcases List.mem_append.mp h with h | h
  · obtain ⟨t, ht, rfl⟩ := List.mem_map.mp h
    exact .inl ⟨t, ht, rfl⟩
  · split at h
    · exact .inr (List.mem_singleton.mp h)
    · cases h

theorem notMem_targets (gather : p.xQubits = targets ++ [control]) : control ∉ targets := by
  obtain ⟨-, -, separate⟩ := List.nodup_append.mp (gather ▸ p.nodup_xQubits)
  exact fun h => separate control h control (List.mem_singleton_self _) rfl

theorem reduction_carries (gather : p.xQubits = targets ++ [control]) :
    ∀ g ∈ p.reduction, g.Carries p.size := by
  have inside : ∀ k ∈ targets ++ [control], k < p.size := by
    rw [← gather]
    exact fun k hk => lt_size_of_mem_xQubits hk
  have hc : control < p.size := inside control (by simp)
  intro g hg
  rw [reduction_of_gather gather] at hg
  rcases List.mem_append.mp hg with before | last
  · obtain ⟨t, ht, rfl⟩ | rfl := mem_before before
    · exact Gate.carries_cx hc (inside t (List.mem_append_left _ ht))
    · exact Gate.carries_s hc
  · cases List.mem_singleton.mp last
    exact Gate.carries_h hc

/-- The CX gates of a piece leave an X part on their control alone. -/
theorem x_gathered (gather : p.xQubits = targets ++ [control]) (j : Nat) :
    ((p.through (targets.map (.cx control))).letter j).x = decide (j = control) := by
  have mem : ∀ k, (p.letter k).x = true ↔ k ∈ targets ∨ k = control := by
    intro k
    rw [← mem_xQubits, gather, List.mem_append, List.mem_singleton]
  have inside : ∀ k, (p.letter k).x = true → k < p.size :=
    fun k hk => lt_size_of_mem_xQubits (mem_xQubits.mpr hk)
  have hx : (p.letter control).x = true := (mem control).mpr (.inr rfl)
  have apart : control ∉ targets := notMem_targets gather
  have distinct : targets.Nodup := (List.nodup_append.mp (gather ▸ p.nodup_xQubits)).1
  have own : (p.letter j).x = decide (j ∈ targets ∨ j = control) := by
    rw [Bool.eq_iff_iff, mem, decide_eq_true_eq]
  rw [x_gather (inside control hx) hx (fun t ht => inside t ((mem t).mpr (.inl ht))) apart distinct,
    own]
  by_cases hj : j = control
  · simp [hj, apart]
  · simp [hj]

/-- Behind its piece an operator has Z on the qubit of the H gate, and elsewhere what
the CX gates have left. -/
theorem letter_reduction (gather : p.xQubits = targets ++ [control]) (j : Nat) :
    (p.through p.reduction).letter j = if j = control then .Z
      else (p.through (targets.map (.cx control))).letter j := by
  have carries := reduction_carries gather
  have alone := x_gathered gather
  have hc : control < p.size := lt_size_of_mem_xQubits (by simp [gather])
  rw [reduction_of_gather gather] at carries ⊢
  rw [through_append (fun g hg => carries g (List.mem_append_left _ hg)),
    through_append (fun g hg => carries g (List.mem_append_left _ (List.mem_append_left _ hg))),
    ← past, past_h (by simpa using hc), letter_modify,
    letter_phase (by simpa using hc) (by simp [alone])]
  by_cases hj : j = control
  · simp only [hj, size_through, hc, and_self, if_true]
    rfl
  · simp [hj]

end

/-- The piece of an operator makes it diagonal. -/
theorem reduction_reduces (p : Pauli) :
    Step.Reduced p.size ⟨p.reduction, p.through p.reduction, false⟩ := by
  rcases List.eq_nil_or_concat' p.xQubits with none | ⟨targets, control, gather⟩
  · have empty : p.reduction = [] := by
      rw [reduction, none]
      rfl
    have isDiagonal : p.isDiagonal = true := by
      rw [isDiagonal_iff]
      intro k
      rw [← Bool.not_eq_true, ← mem_xQubits, none]
      exact List.not_mem_nil
    rw [empty]
    exact ⟨⟨rfl, by simp⟩, rfl, isDiagonal, by simp, .inl rfl⟩
  · have letters := letter_reduction gather
    have isDiagonal : (p.through p.reduction).isDiagonal = true := by
      rw [isDiagonal_iff]
      intro j
      rw [letters]
      by_cases hj : j = control
      · rw [if_pos hj]
        rfl
      · simp [hj, x_gathered gather]
    refine ⟨⟨size_through .., reduction_carries gather⟩, rfl, isDiagonal, ?_, .inr ⟨_, control,
      reduction_of_gather gather, by simp [letters], ?_⟩⟩
    · rintro g hg k rfl
      simp only [reduction_of_gather gather] at hg
      rcases List.mem_append.mp hg with before | last
      · obtain ⟨t, ht, same⟩ | same := mem_before before
        · cases same
          exact notMem_targets gather ht
        · cases same
      · cases List.mem_singleton.mp last
    · intro g hg
      obtain ⟨t, -, rfl⟩ | rfl := mem_before hg <;> rfl

end Pauli

/-! ## Whole lists -/

namespace Network

/-- The steps for the operators, in the frame of the gates so far. -/
def reducedSteps (frame : List Gate) : List Pauli → List Step
  | [] => []
  | p :: rest =>
    let piece := (p.through frame).reduction
    ⟨piece, (p.through frame).through piece, false⟩ :: reducedSteps (frame ++ piece) rest

@[simp] theorem length_reducedSteps (frame : List Gate) (paulis : List Pauli) :
    (reducedSteps frame paulis).length = paulis.length := by
  induction paulis generalizing frame with
  | nil => rfl
  | cons p rest ih => exact congrArg Nat.succ (ih _)

theorem mapM_conjugate {n : Nat} {gates : List Gate} (carries : ∀ g ∈ gates, g.Carries n)
    {paulis : List Pauli} (sizes : ∀ p ∈ paulis, p.size = n) :
    paulis.mapM (·.conjugate gates) = .ok (paulis.map (·.through gates)) := by
  induction paulis with
  | nil => rfl
  | cons p rest ih =>
    rw [List.forall_mem_cons] at sizes
    have first : p.conjugate gates = .ok (p.through gates) := by
      apply Pauli.conjugate_eq_through
      rwa [sizes.1]
    rw [List.mapM_cons, first, ih sizes.2]
    rfl

theorem reduced_of_mem {n : Nat} {frame : List Gate} {paulis : List Pauli}
    (sizes : ∀ p ∈ paulis, p.size = n) : ∀ s ∈ reducedSteps frame paulis, s.Reduced n := by
  induction paulis generalizing frame with
  | nil =>
    intro s hs
    cases hs
  | cons p rest ih =>
    rw [List.forall_mem_cons] at sizes
    have first := (p.through frame).reduction_reduces
    rw [Pauli.size_through, sizes.1] at first
    exact List.forall_mem_cons.mpr ⟨first, ih sizes.2⟩

theorem stepsFrom_eq {n : Nat} {all : List Pauli} (whole : ∀ p ∈ all, p.size = n)
    {frame : List Gate} (carries : ∀ g ∈ frame, g.Carries n) {paulis : List Pauli}
    (sizes : ∀ p ∈ paulis, p.size = n) :
    stepsFrom all frame paulis = .ok (reducedSteps frame paulis) := by
  induction paulis generalizing frame with
  | nil => rfl
  | cons p rest ih =>
    rw [List.forall_mem_cons] at sizes
    have current : p.conjugate frame = .ok (p.through frame) := by
      apply Pauli.conjugate_eq_through
      rwa [sizes.1]
    have size : (p.through frame).size = n := (Pauli.size_through ..).trans sizes.1
    have piece : ∀ g ∈ (p.through frame).reduction, g.Carries n := by
      rw [← size]
      exact (p.through frame).reduction_reduces.piece
    have axis : (p.through frame).conjugate (p.through frame).reduction =
        .ok ((p.through frame).through (p.through frame).reduction) := by
      apply Pauli.conjugate_eq_through
      rwa [size]
    have later := ih (List.forall_mem_append.mpr ⟨carries, piece⟩) sizes.2
    simp only [stepsFrom, current, mapM_conjugate piece whole, axis, later, bind, Except.bind, pure,
      Except.pure, reducedSteps]

/-- The construction gives a network for all operators of one size. -/
theorem ofPaulis_eq {n : Nat} {paulis : List Pauli} (sizes : ∀ p ∈ paulis, p.size = n) :
    ofPaulis paulis = .ok ⟨reducedSteps [] paulis⟩ := by
  rw [ofPaulis, stepsFrom_eq sizes (by simp) sizes]
  rfl

end Network

end HadamardFree
