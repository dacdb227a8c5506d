import HadamardFree.Proofs.CircuitRun

/-!
# Streams on states

A stream can be run on states in its own order. It then has the result of the Clifford
circuit and the phase polynomial that it is folded into:

* `State.runStream?`: gates and rotations in stream order, each rotation negated by its
  own sign and flips;
* `State.runStream?_ofWave`: what this does to waves;
* `folded_run_eq_stream_run`: where a table of the width can be laid out, folding succeeds
  and keeps the result exactly.
-/

namespace HadamardFree

/-- Whether the angle is negated an odd number of times, by the sign and by the flips
whose outcome is 1. -/
def Rotation.reversed (r : Rotation) (outcomes : List Bool) : Bool :=
  r.sign ^^ odd r.flips fun id => outcomes.getD id false

/-- Gates and rotations in stream order. The rotations take one angle after the other and
turn about the product of Z on the qubits where their axis has the letter Z. There is no
result if a gate cannot be applied or the angles do not suffice. -/
noncomputable def State.runStream? (outcomes : List Bool) (s : State ℂ) :
    List StreamOp → List ℝ → Option (State ℂ)
  | [], _ => some s
  | .gate g :: rest, angles => do
    let s ← s.applyGate? g
    s.runStream? outcomes rest angles
  | .rotation _ :: _, [] => none
  | .rotation r :: rest, angle :: angles =>
    (s.rotate (mask (r.axis.letters.map (· == .Z)))
      (signed (r.reversed outcomes) angle)).runStream? outcomes rest angles

theorem Pauli.zBits_of_isDiagonal {p : Pauli} (isDiagonal : p.isDiagonal = true) :
    p.letters.map (· == .Z) = p.zBits := by
  apply List.map_congr_left
  intro a ha
  have own : a.isDiagonal = true := List.all_eq_true.mp isDiagonal a ha
  cases a with
  | I | Z => rfl
  | X | Y => cases own

/-- The run of a stream on waves, where `angle` gives what each rotation turns by. -/
theorem State.runStream?_ofWave {width first : Nat} {stream : List StreamOp} {angles : List ℝ}
    {outcomes : List Bool} {angle : Nat → ℝ} (folds : ∀ op ∈ stream, op.Folds width)
    (unitary : ∀ g, .gate g ∈ stream → ∀ k id, g ≠ .meas k id)
    (enough : angles.length = (StreamOp.rotations stream).length)
    (turns : ∀ k r, (StreamOp.rotations stream)[k]? = some r →
      angle (first + k) = signed (r.reversed outcomes) (angles.getD k 0)) (φ : Wave) :
    (ofWave width φ).runStream? outcomes stream angles =
      some (ofWave width (φ.stream width angle first stream)) := by
  induction stream generalizing first angles φ with
  | nil => rfl
  | cons op stream ih =>
    rw [List.forall_mem_cons] at folds
    have later : ∀ g, .gate g ∈ stream → ∀ k id, g ≠ .meas k id :=
      fun g hg => unitary g (List.mem_cons_of_mem _ hg)
    cases op with
    | gate g =>
      have fits : g.fits width = true := folds.1
      have applied := applyGate?_ofWave φ fits (unitary g (List.mem_cons_self ..))
      rw [runStream?, applied]
      exact ih folds.2 later enough turns (φ.gate g)
    | rotation r =>
      have listed : StreamOp.rotations (.rotation r :: stream) = r :: StreamOp.rotations stream :=
        rfl
      rw [listed] at enough turns
      obtain ⟨a, angles, rfl⟩ := List.exists_cons_of_length_eq_add_one enough
      have own : angle first = signed (r.reversed outcomes) a := turns 0 r rfl
      have rest : ∀ k r', (StreamOp.rotations stream)[k]? = some r' →
          angle (first + 1 + k) = signed (r'.reversed outcomes) (angles.getD k 0) := by
        intro k r' hr'
        have other := turns (k + 1) r' hr'
        rw [Nat.add_assoc, Nat.add_comm 1 k, other]
        rfl
      rw [runStream?, Pauli.zBits_of_isDiagonal folds.1.2, rotate_ofWave, ← own]
      simp only [Pauli.getD_zBits]
      exact ih folds.2 later (Nat.succ.inj enough) rest _

/-- Term number `k` has the flips and the sign of rotation number `k`. -/
theorem Folded.rotation_of_term {stream : List StreamOp} {width : Nat} {f : Folded}
    (folded : ofStream stream width = .ok f) {k : Nat} {t : Term}
    (ht : f.poly.terms[k]? = some t) :
    ∃ r, (StreamOp.rotations stream)[k]? = some r ∧ r.flips = t.flips ∧ r.sign = t.sign := by
  obtain ⟨-, rfl⟩ := ofStream_eq_ok_iff.mp folded
  have entry := congrArg (·[k]?) (kept_foldl ⟨.empty width, []⟩ stream)
  have none : (PhasePolynomial.empty width).terms = [] := rfl
  simp only [none, List.map_nil, List.nil_append, List.getElem?_map, ht, Option.map_some] at entry
  obtain ⟨r, found, same⟩ := Option.map_eq_some_iff.mp entry.symm
  exact ⟨r, found, congrArg Prod.fst same, congrArg Prod.snd same⟩

theorem Folded.size_of_ofStream {stream : List StreamOp} {width : Nat} {f : Folded}
    (folded : ofStream stream width = .ok f) :
    f.poly.size = (StreamOp.rotations stream).length := by
  obtain ⟨-, rfl⟩ := ofStream_eq_ok_iff.mp folded
  exact (size_foldl ..).trans (Nat.zero_add _)

/-- **Folding keeps the result.** A stream of S, CZ and CX gates on the register and of
diagonal rotations that span it can be folded, if a table of its width can be laid out;
else there is no answer. For all states of the register, all angles and all outcomes of the
flips, the stream run in its own order ends in the same state as the Clifford circuit
followed by the terms. -/
theorem folded_run_eq_stream_run {width : Nat} {stream : List StreamOp}
    (gates : ∀ g, .gate g ∈ stream → g.Middle ∧ g.fits width = true)
    (axes : ∀ r, .rotation r ∈ stream → r.axis.size = width ∧ r.axis.isDiagonal = true) :
    (byteLimit ≤ width → Folded.ofStream? stream width = none) ∧
    (width < byteLimit → ∃ f, Folded.ofStream? stream width = some (.ok f) ∧
      f.poly.size = (StreamOp.rotations stream).length ∧
      ∀ (s : State ℂ) (angles : List ℝ) (outcomes : List Bool), s.qubits = width →
        angles.length = (StreamOp.rotations stream).length →
        (∀ r ∈ StreamOp.rotations stream, ∀ id ∈ r.flips, id < outcomes.length) →
        ∃ prepared out, s.applyGates? f.clifford = some prepared ∧
          prepared.runTerms outcomes (f.poly.terms.zip angles) = .ok out ∧
          s.runStream? outcomes stream angles = some out) := by
  refine ⟨Folded.ofStream?_eq_none stream, fun narrow => ?_⟩
  have folds : ∀ op ∈ stream, op.Folds width := by
    intro op hop
    cases op with
    | gate g => exact (gates g hop).2
    | rotation r => exact axes r hop
  have middle : ∀ g, .gate g ∈ stream → g.Middle := fun g hg => (gates g hg).1
  obtain ⟨f, folded⟩ : ∃ f, Folded.ofStream stream width = .ok f :=
    ⟨_, Folded.ofStream_eq_ok_iff.mpr ⟨folds, rfl⟩⟩
  have count := Folded.size_of_ofStream folded
  refine ⟨f, ?_, count, ?_⟩
  · rw [Folded.ofStream?_eq_some stream narrow, folded]
  · intro s angles outcomes qubits enough known
    let angle : Nat → ℝ := fun k => State.signed
      (((StreamOp.rotations stream)[k]?).any fun r => r.reversed outcomes) (angles.getD k 0)
    have clifford : (State.ofWave width s.wave).applyGates? f.clifford =
        some (State.ofWave width (s.wave.gates f.clifford)) := by
      apply State.applyGates?_ofWave
      · intro g hg
        exact (gates g (Folded.mem_clifford folded hg)).2
      · intro g hg
        exact (middle g (Folded.mem_clifford folded hg)).2.2
    have terms : (State.ofWave width (s.wave.gates f.clifford)).runTerms outcomes
          (f.poly.terms.zip angles) =
        .ok (State.ofWave width (s.wave.stream width angle 0 stream)) := by
      rw [← Folded.act_ofStream folded middle]
      apply State.runTerms_ofWave (enough.trans count.symm)
      intro k t ht
      obtain ⟨r, found, flips, sign⟩ := Folded.rotation_of_term folded ht
      refine ⟨r.reversed outcomes, ?_, ?_⟩
      · rw [Term.negated?, ← flips, ← sign,
          flippedSign?_eq (known r (List.mem_of_getElem? found))]
        rfl
      · simp only [angle, Nat.zero_add, found, Option.any_some]
    have direct : (State.ofWave width s.wave).runStream? outcomes stream angles =
        some (State.ofWave width (s.wave.stream width angle 0 stream)) := by
      apply State.runStream?_ofWave folds (fun g hg => (middle g hg).2.2) enough
      intro k r found
      simp only [angle, Nat.zero_add, found, Option.any_some]
    rw [← qubits, s.ofWave_wave] at clifford direct
    exact ⟨_, _, clifford, qubits ▸ terms, direct⟩

/-- A CX gate behind a rotation whose flip has the outcome 1, and an S gate in between. -/
theorem folded_run_of_cx_behind_rotation :
    let stream : List StreamOp := [.rotation ⟨⟨[.I, .Z]⟩, [0], false⟩, .gate (.s 0),
      .gate (.cx 0 1), .rotation ⟨⟨[.Z, .I]⟩, [], true⟩]
    let f : Folded := ⟨⟨2, [⟨[true, true], [0], false⟩, ⟨[true, false], [], true⟩]⟩,
      [.s 0, .cx 0 1]⟩
    Folded.ofStream? stream 2 = some (.ok f) ∧
    ∀ s : State ℂ, s.qubits = 2 → ∃ prepared out,
      s.applyGates? f.clifford = some prepared ∧
      prepared.runTerms [true] (f.poly.terms.zip [1, 2]) = .ok out ∧
      s.runStream? [true] stream [1, 2] = some out := by
  intro stream f
  have folded : Folded.ofStream? stream 2 = some (.ok f) := rfl
  have gates : ∀ g, .gate g ∈ stream → g.Middle ∧ g.fits 2 = true := by
    simp [stream, Gate.Middle, Gate.isH, Gate.fits, Gate.qubits]
  have axes : ∀ r, .rotation r ∈ stream → r.axis.size = 2 ∧ r.axis.isDiagonal = true := by
    simp [stream, Pauli.size, Pauli.isDiagonal, Letter.isDiagonal]
  obtain ⟨f', found, -, runs⟩ := (folded_run_eq_stream_run gates axes).2 (by decide)
  cases folded.symm.trans found
  refine ⟨folded, fun s qubits => runs s [1, 2] [true] qubits rfl ?_⟩
  simp [stream, StreamOp.rotations, StreamOp.rotation?]

/-- Two gates on the register, without any rotation. On `byteLimit` slots not even the table
without rows can be laid out. -/
theorem stream_run_without_room :
    let stream : List StreamOp := [.gate (.s 0), .gate (.cz 0 1)]
    (∀ g, .gate g ∈ stream → g.Middle ∧ g.fits byteLimit = true) ∧
    (∀ r, .rotation r ∉ stream) ∧
    ¬ ∃ f, Folded.ofStream? stream byteLimit = some (.ok f) := by
  intro stream
  refine ⟨?_, by simp [stream], ?_⟩
  · simp [stream, Gate.Middle, Gate.isH, Gate.fits, Gate.qubits, byteLimit]
  · rintro ⟨f, folded⟩
    rw [Folded.ofStream?_eq_none stream (Nat.le_refl _)] at folded
    cases folded

end HadamardFree
