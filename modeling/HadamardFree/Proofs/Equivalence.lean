import HadamardFree.Proofs.CircuitRun
import Mathlib.Analysis.Complex.Basic

/-!
# The circuit does what the network does

For every network that gives a circuit, under all outcomes of the measurements, the
circuit has the result of the network up to a factor of modulus one, if some angles
are negated: those of a step with H gates whose outcome is 1 and whose X commutes
with the axis of the step, because a gadget flips the rotation of its own step in any
case.

* `Network.runNetwork?_eq_branch`: the run of a network;
* `Network.turns_eq_ownTurn`: what is left of the flips;
* `circuit_run_eq_network_run`: the main statement.
-/

namespace HadamardFree

/-- States that differ by a factor of modulus one only. -/
def State.EqUpToPhase (s t : State ℂ) : Prop :=
  s.qubits = t.qubits ∧ ∃ ω : ℂ, ‖ω‖ = 1 ∧ ∀ i, s.amp i = ω * t.amp i

theorem State.eqUpToPhase_smul {ω : ℂ} (root : ω ^ 4 = 1) (n : Nat) (ψ : Wave) :
    (ofWave n (ω • ψ)).EqUpToPhase (ofWave n ψ) := by
  refine ⟨rfl, ω, Complex.norm_eq_one_of_pow_eq_one root (by decide), ?_⟩
  intro i
  by_cases small : i < 1 <<< n
  · rw [amp_ofWave _ small, amp_ofWave _ small]
    rfl
  · rw [amp_of_le (Nat.le_of_not_lt small), amp_of_le (Nat.le_of_not_lt small), mul_zero]

/-- The basis state in which all qubits are zero. -/
theorem State.weight_zeros (n : Nat) :
    (State.ofFn n fun i => if i = 0 then (1 : ℂ) else 0).weight = 1 := by
  have first : 0 < 1 <<< n := by
    rw [Nat.one_shiftLeft]
    exact Nat.two_pow_pos n
  rw [weight, ofFn, Array.toList_ofFn, List.map_ofFn, List.sum_ofFn,
    Finset.sum_eq_single ⟨0, first⟩]
  · simp [Amplitude.normSq]
  · intro i _ other
    have apart : (i : Nat) ≠ 0 := fun h => other (Fin.ext h)
    rw [Function.comp_apply, if_neg apart]
    exact Complex.normSq_zero
  · simp

/-! ## Networks -/

/-- What holds of all gates and rotations holds of each step. -/
theorem Op.forall_ofSteps {P : Op → Prop} {first : Nat} {steps : List Step} :
    (∀ op ∈ ofSteps first steps, P op) ↔ ∀ k s, steps[k]? = some s →
      (∀ g ∈ s.piece, P (.gate (first + k) g)) ∧ P (.rotation (first + k) s.axis s.sign) := by
  induction steps generalizing first with
  | nil => simp [ofSteps]
  | cons s steps ih =>
    have own : (∀ op ∈ ofStep first s, P op) ↔
        (∀ g ∈ s.piece, P (.gate first g)) ∧ P (.rotation first s.axis s.sign) := by
      simp [ofStep, or_imp, forall_and]
    rw [ofSteps, List.forall_mem_append, own, ih]
    constructor
    · rintro ⟨head, later⟩ k s' hs'
      cases k with
      | zero =>
        cases hs'
        exact head
      | succ k =>
        have found := later k s' hs'
        rwa [Nat.add_assoc, Nat.add_comm 1 k] at found
    · intro h
      refine ⟨h 0 s rfl, fun k s' hs' => ?_⟩
      have found := h (k + 1) s' hs'
      rwa [Nat.add_comm k 1, ← Nat.add_assoc] at found

theorem Op.branch_map_append (n : Nat) (angle : Nat → ℝ) (step : Nat) (piece : List Gate)
    (rest : List Op) (ψ : Wave) :
    branch n angle (piece.map (.gate step) ++ rest) [] ψ =
      branch n angle rest [] (ψ.gates piece) := by
  induction piece generalizing ψ with
  | nil => rfl
  | cons g piece ih =>
    rw [List.map_cons, List.cons_append, branch_gate_nil, ih]
    rfl

theorem State.runSteps?_ofWave {n first : Nat} {steps : List Step} {angles : List ℝ}
    {angle : Nat → ℝ} (carries : ∀ s ∈ steps, s.Carries n)
    (isDiagonal : ∀ s ∈ steps, s.axis.isDiagonal = true) (enough : angles.length = steps.length)
    (turns : ∀ k s, steps[k]? = some s → angle (first + k) = signed s.sign (angles.getD k 0))
    (ψ : Wave) :
    (ofWave n ψ).runSteps? (steps.zip angles) =
      some (ofWave n (Op.branch n angle (Op.ofSteps first steps) [] ψ)) := by
  induction steps generalizing first angles ψ with
  | nil => rfl
  | cons s steps ih =>
    rw [List.forall_mem_cons] at carries isDiagonal
    obtain ⟨a, angles, rfl⟩ := List.exists_cons_of_length_eq_add_one enough
    have own := turns 0 s rfl
    rw [Nat.add_zero, List.getD_cons_zero] at own
    have rest : ∀ k s', steps[k]? = some s' →
        angle (first + 1 + k) = signed s'.sign (angles.getD k 0) := by
      intro k s' hs'
      have other := turns (k + 1) s' hs'
      rw [Nat.add_assoc, Nat.add_comm 1 k, other]
      rfl
    have unitary : ∀ g ∈ s.piece, ∀ k id, g ≠ .meas k id := by
      rintro g hg k id rfl
      cases (carries.1.piece _ hg).1
    have ran : (ofWave n ψ).runStep? s a = some (ofWave n
        ((ψ.gates s.piece).rotate n (fun k => (s.axis.letter k).z) (angle first))) := by
      rw [runStep?, applyGates?_ofWave ψ (fun g hg => (carries.1.piece g hg).2) unitary]
      simp only [Option.bind_eq_bind, Option.bind_some, isDiagonal.1, if_true, rotate_ofWave,
        Pauli.getD_zBits, own]
    rw [List.zip_cons_cons, runSteps?, ran, Op.ofSteps, Op.ofStep, List.append_assoc,
      Op.branch_map_append]
    exact ih carries.2 isDiagonal.2 (Nat.succ.inj enough) rest _

namespace Network

variable {network : Network} {n : Nat}

/-- The run of a network is the logical run without outcomes. -/
theorem runNetwork?_eq_branch (carries : ∀ s ∈ network.steps, s.Carries n)
    (isDiagonal : ∀ s ∈ network.steps, s.axis.isDiagonal = true) {angles : List ℝ}
    (enough : angles.length = network.size) {s : State ℂ} (qubits : s.qubits = n) :
    s.runNetwork? network angles = some (State.ofWave n
      (Op.branch n (fun k => State.signed (network.signAt k) (angles.getD k 0))
        (Op.ofSteps 0 network.steps) [] s.wave)) := by
  subst qubits
  conv_lhs => rw [← s.ofWave_wave]
  apply State.runSteps?_ofWave carries isDiagonal enough
  intro k step found
  rw [Nat.zero_add, signAt, get?, found, Option.any_some]

/-! ## What is left of the flips -/

/-- The angle of step `k` is negated once for each H gate of the step whose outcome is
1 and whose X, carried through the rest of the piece, commutes with the axis. -/
def ownTurn (network : Network) (n : Nat) (outcomes : List Bool) (k : Nat) : Bool :=
  odd (network.sites.zip outcomes) fun x => x.2 && (x.1.step == k &&
    !network.clashesAt k ((Pauli.single n x.1.qubit .X).through x.1.tail))

noncomputable def adjusted (network : Network) (n : Nat) (outcomes : List Bool)
    (angles : List ℝ) : List ℝ :=
  angles.mapIdx fun k angle => State.signed (network.ownTurn n outcomes k) angle

theorem odd_zip_eq {α β : Type} {R : α → β → Prop} {as : List α} {bs : List β}
    (related : List.Forall₂ R as bs) {f : α → Bool} {g : β → Bool}
    (same : ∀ a b, R a b → f a = g b) (outcomes : List Bool) :
    (odd (as.zip outcomes) fun x => x.2 && f x.1) = odd (bs.zip outcomes) fun x => x.2 && g x.1 := by
  induction related generalizing outcomes with
  | nil => rfl
  | @cons a b as bs first rest ih =>
    cases outcomes with
    | nil => rfl
    | cons outcome outcomes =>
      rw [List.zip_cons_cons, List.zip_cons_cons, odd_cons, odd_cons, ih, same a b first]

/-- The flips of the gadgets and those that their X needs differ in the steps of the
gadgets themselves. -/
theorem turns_eq_ownTurn {u : Unfolded} (unfolds : network.unfolded = .ok u)
    (width : network.width? = some n) (outcomes : List Bool) (k : Nat) :
    (Gadget.turns (u.gadgets.zip outcomes) k ^^ Hadamard.turns n
        ((Hadamard.ofOps (Op.ofSteps 0 network.steps)).zip outcomes) k) =
      network.ownTurn n outcomes k := by
  obtain ⟨carries, -, r, -, emission⟩ := network.unfolded_emission unfolds width
  have gates : Hadamard.ofOps (Op.ofSteps 0 network.steps) =
      network.sites.map fun site => ⟨site.step, site.qubit, site.rest network⟩ :=
    Hadamard.ofOps_ofSteps network 0
  have replaces := emission.replaces
  rw [gates, List.forall₂_map_left_iff] at replaces
  have flips : Gadget.turns (u.gadgets.zip outcomes) k =
      odd (network.sites.zip outcomes) fun x => x.2 && (k == x.1.step ||
        (Op.flips (.single n x.1.qubit .X) (x.1.rest network)).contains k) := by
    have same : ∀ (site : HadamardSite) (g : Gadget), g.Replaces n r.placement u.width
        ⟨site.step, site.qubit, site.rest network⟩ → (k == site.step ||
          (Op.flips (.single n site.qubit .X) (site.rest network)).contains k) =
        g.flips.contains k := by
      intro site g replaced
      rw [Bool.eq_iff_iff]
      simpa [Hadamard.flips] using (replaced.flips k).symm
    exact (odd_zip_eq replaces same outcomes).symm
  have needed : Hadamard.turns n ((network.sites.map fun site =>
        ⟨site.step, site.qubit, site.rest network⟩).zip outcomes) k =
      odd (network.sites.zip outcomes) fun x =>
        x.2 && (Op.flips (.single n x.1.qubit .X) (x.1.rest network)).contains k := by
    rw [Hadamard.turns, List.zip_map_left, odd_map]
    rfl
  rw [flips, gates, needed, ← odd_xor, ownTurn]
  apply odd_congr
  rintro ⟨site, outcome⟩ listed
  have tailCarries := HadamardSite.tail_carries carries (List.of_mem_zip listed).1
  have met := HadamardSite.mem_flips_rest carries tailCarries (k := k)
  cases outcome with
  | false => rfl
  | true =>
    by_cases own : k = site.step
    · subst own
      rw [HadamardSite.byproduct_own] at met
      cases clash : network.clashesAt site.step
          ((Pauli.single n site.qubit .X).through site.tail) <;> simp [met, clash]
    · have other : (site.step == k) = false := by simpa using Ne.symm own
      have other' : (k == site.step) = false := by simpa using own
      simp only [other, other', Bool.false_or, Bool.true_and, Bool.xor_self, Bool.false_and]

theorem isDiagonal_of_circuit {c : Circuit} (built : network.circuit = .ok c)
    (width : network.width? = some n) : ∀ s ∈ network.steps, s.axis.isDiagonal = true := by
  obtain ⟨u, f, unfolds, folded, -⟩ := circuit_eq_ok built
  obtain ⟨-, wide, r, -, emission⟩ := network.unfolded_emission unfolds width
  have start : (Register.start n u.width).Sound [] := Register.start_sound (by omega)
  have folds := (Folded.ofStream_eq_ok_iff.mp folded).1
  have axes := (emission.folds_iff start (Register.size_start ..) u.gadgets).mp folds
  intro s hs
  obtain ⟨k, hk⟩ := List.getElem?_of_mem hs
  exact (Op.forall_ofSteps.mp axes k s hk).2

/-- Networks of one width with diagonal axes give a circuit. -/
theorem exists_circuit (width : network.width? = some n)
    (carries : ∀ s ∈ network.steps, s.Carries n)
    (isDiagonal : ∀ s ∈ network.steps, s.axis.isDiagonal = true) :
    ∃ c, network.circuit = .ok c := by
  obtain ⟨u, r, unfolds, wide, -, emission⟩ := network.exists_unfolded width carries
  have start : (Register.start n u.width).Sound [] := Register.start_sound (by omega)
  have axes : ∀ op ∈ Op.ofSteps 0 network.steps, op.Diagonal :=
    Op.forall_ofSteps.mpr fun k s hs =>
      ⟨fun _ _ => trivial, isDiagonal s (List.mem_of_getElem? hs)⟩
  have folds := (emission.folds_iff start (Register.size_start ..) u.gadgets).mpr axes
  obtain ⟨f, folded⟩ : ∃ f, Folded.ofStream u.stream u.width = .ok f :=
    ⟨_, Folded.ofStream_eq_ok_iff.mpr ⟨folds, rfl⟩⟩
  refine ⟨⟨u, f.clifford, f.poly⟩, ?_⟩
  rw [circuit, unfolds]
  simp only [bind, Except.bind, Unfolded.fold, folded]

/-- The run of a circuit is that of its network with the adjusted angles. -/
theorem runCircuit_eq_branch {c : Circuit} (built : network.circuit = .ok c)
    (width : network.width? = some n)
    (distinct : ∀ s ∈ network.steps, ∀ g ∈ s.piece, ∀ k, g ≠ .cx k k) {angles : List ℝ}
    {outcomes : List Bool} (enoughAngles : angles.length = network.size)
    (enoughOutcomes : outcomes.length = network.hCount) {s : State ℂ} (qubits : s.qubits = n)
    (normalized : s.weight = 1) :
    ∃ ω : ℂ, ω ^ 4 = 1 ∧ s.runCircuit c angles outcomes = .ok
      ⟨State.ofWave n (ω • Op.branch n (fun k => State.signed (network.signAt k)
          ((network.adjusted n outcomes angles).getD k 0)) (Op.ofSteps 0 network.steps) [] s.wave),
        List.replicate network.hCount (1 / 2)⟩ := by
  subst qubits
  have weight : s.wave.weight s.qubits = 1 := by
    rw [← State.weight_ofWave, s.ofWave_wave]
    exact normalized
  obtain ⟨u, f, unfolds, folded, rfl⟩ := circuit_eq_ok built
  obtain ⟨carries, -⟩ := network.unfolded_emission unfolds width
  have isDiagonal := isDiagonal_of_circuit built width
  have fits : ∀ op ∈ Op.ofSteps 0 network.steps, op.Fits s.qubits := by
    rw [Op.forall_ofSteps]
    intro k step found
    have listed := List.mem_of_getElem? found
    exact ⟨fun g hg => ⟨(carries step listed).piece g hg, distinct step listed g hg⟩,
      (carries step listed).axis, isDiagonal step listed⟩
  have numbers := Op.rotations_ofSteps 0 network.steps
  have nodup : ((Op.ofSteps 0 network.steps).filterMap Op.rotation?).Nodup := by
    rw [numbers]
    exact List.nodup_range'
  obtain ⟨ω, root, corrected⟩ := Op.correct_branch fits nodup
    (fun k => State.signed (network.signAt k ^^ Gadget.turns (u.gadgets.zip outcomes) k)
      (angles.getD k 0)) outcomes
  refine ⟨ω, root, ?_⟩
  conv_lhs => rw [← s.ofWave_wave]
  rw [runCircuit_ofWave built width distinct enoughAngles enoughOutcomes s.local_wave weight,
    corrected]
  -- Only the angles are left to compare.
  have angle : ∀ k ∈ (Op.ofSteps 0 network.steps).filterMap Op.rotation?,
      State.signed (Hadamard.turns s.qubits ((Hadamard.ofOps (Op.ofSteps 0 network.steps)).zip outcomes) k)
          (State.signed (network.signAt k ^^ Gadget.turns (u.gadgets.zip outcomes) k)
            (angles.getD k 0)) =
        State.signed (network.signAt k) ((network.adjusted s.qubits outcomes angles).getD k 0) := by
    intro k hk
    rw [numbers, List.mem_range'_1] at hk
    have inside : k < angles.length := by
      rw [enoughAngles, size]
      omega
    have entry : (network.adjusted s.qubits outcomes angles).getD k 0 =
        State.signed (network.ownTurn s.qubits outcomes k) (angles.getD k 0) := by
      simp [adjusted, List.getD_eq_getElem?_getD, inside]
    rw [entry, ← turns_eq_ownTurn unfolds width, State.signed_signed, State.signed_signed,
      Bool.xor_left_comm, Bool.xor_comm (Hadamard.turns ..)]
  rw [Op.branch_congr angle]

end Network

/-- **The circuit does what the network does.** For every network that gives a circuit,
all angles and all outcomes, the run of the circuit has a result; each outcome has
probability one half; and the result is that of the network with the adjusted angles,
up to a factor of modulus one. -/
theorem circuit_run_eq_network_run {network : Network} {c : Circuit} {n : Nat}
    (built : network.circuit = .ok c) (width : network.width? = some n)
    (distinct : ∀ s ∈ network.steps, ∀ g ∈ s.piece, ∀ k, g ≠ .cx k k) {angles : List ℝ}
    {outcomes : List Bool} (enoughAngles : angles.length = network.size)
    (enoughOutcomes : outcomes.length = network.hCount) {s : State ℂ} (qubits : s.qubits = n)
    (normalized : s.weight = 1) :
    ∃ run expected, s.runCircuit c angles outcomes = .ok run ∧
      run.probabilities = List.replicate network.hCount (1 / 2) ∧
      s.runNetwork? network (network.adjusted n outcomes angles) = some expected ∧
      run.state.EqUpToPhase expected := by
  obtain ⟨ω, root, ran⟩ := network.runCircuit_eq_branch built width distinct enoughAngles
    enoughOutcomes qubits normalized
  obtain ⟨u, f, unfolds, -, -⟩ := Network.circuit_eq_ok built
  obtain ⟨carries, -⟩ := network.unfolded_emission unfolds width
  have enough : (network.adjusted n outcomes angles).length = network.size := by
    rw [Network.adjusted, List.length_mapIdx, enoughAngles]
  have direct := network.runNetwork?_eq_branch carries (Network.isDiagonal_of_circuit built width)
    enough qubits
  exact ⟨_, _, ran, rfl, direct, State.eqUpToPhase_smul root ..⟩

/-- Where the X of a gadget commutes with the axis of its own step, the outcome 1 turns
the rotation by the negated angle. -/
theorem circuit_run_of_commuting_axis :
    let network : Network := ⟨[⟨[.h 0], ⟨[.I, .Z]⟩, false⟩]⟩
    let s : State ℂ := .ofFn 2 fun i => if i = 0 then 1 else 0
    network.adjusted 2 [true] [1] = [-1] ∧ s.weight = 1 ∧
    ∃ c run expected, network.circuit = .ok c ∧ s.runCircuit c [1] [true] = .ok run ∧
      run.probabilities = [1 / 2] ∧ s.runNetwork? network [-1] = some expected ∧
      run.state.EqUpToPhase expected := by
  intro network s
  have adjusted : network.adjusted 2 [true] [1] = [-1] := rfl
  have weight : s.weight = 1 := State.weight_zeros 2
  obtain ⟨c, built⟩ : ∃ c, network.circuit = .ok c := ⟨_, rfl⟩
  have width : network.width? = some 2 := rfl
  have distinct : ∀ s ∈ network.steps, ∀ g ∈ s.piece, ∀ k, g ≠ .cx k k := by
    simp [network]
  have enoughAngles : [(1 : ℝ)].length = network.size := rfl
  have enoughOutcomes : [true].length = network.hCount := rfl
  obtain ⟨run, expected, ran, halves, direct, same⟩ := circuit_run_eq_network_run built width
    distinct enoughAngles enoughOutcomes (s := s) rfl weight
  rw [adjusted] at direct
  exact ⟨adjusted, weight, c, run, expected, built, ran, halves, direct, same⟩

end HadamardFree
