import HadamardFree.Proofs.Equivalence
import HadamardFree.Proofs.Exchange
import HadamardFree.Proofs.Reduction

/-!
# Circuits for lists of operators

In the network of a list of operators each H gate is the last gate of its piece, and
the axis of its step is Z on its qubit. So the X of a gadget never commutes with the
axis of its own step, and the gadget is right to flip the rotation there:

* `Network.ownTurn_of_reduced`: no angle has to be adjusted;
* `diagonalized_run_eq_network_run`: for every list of texts of one length, the
  circuit does what the network does.
-/

namespace HadamardFree

/-- A diagonal operator and an X on one qubit. -/
theorem Pauli.commutes_single {p : Pauli} {n k : Nat} (size : p.size = n) (hk : k < n) :
    p.commutes (.single n k .X) = !(p.letter k).z := by
  have bits : ∀ j, j < n → (((p.letter j).x && ((single n k .X).letter j).z) ^^
        ((p.letter j).z && ((single n k .X).letter j).x)) =
      Function.update (fun _ => false) k (p.letter k).z j := by
    intro j _
    rw [letter_single _ hk]
    by_cases hj : j = k
    · simp [hj, Letter.x, Letter.z]
    · simp [hj, Letter.x, Letter.z]
  have none : parity n (fun _ => false) = false := odd_eq_false fun _ _ => rfl
  rw [commutes_eq_parity (n := n) (by rw [size]; exact Nat.min_le_left ..), parity_congr bits,
    parity_update _ _ hk, none, Bool.false_xor, Bool.false_xor]

namespace Network

variable {network : Network} {n : Nat}

/-- In a reduced step the one H gate has no tail, and Z on its qubit. -/
theorem site_of_reduced (reduced : ∀ s ∈ network.steps, s.Reduced n) {site : HadamardSite}
    (h : site ∈ network.sites) :
    site.tail = [] ∧ ∃ s, network.get? site.step = some s ∧ s.axis.letter site.qubit = .Z := by
  obtain ⟨k, s, before, number, found, split⟩ := HadamardSite.mem_ofSteps h
  rw [Nat.zero_add] at number
  subst number
  obtain empty | ⟨others, control, last, letter, noH⟩ :=
    (reduced s (List.mem_of_getElem? found)).turn
  · rw [empty] at split
    cases before <;> cases split
  · rw [last] at split
    rcases List.eq_nil_or_concat' site.tail with tail | ⟨rest, g, tail⟩
    · rw [tail] at split
      obtain ⟨-, same⟩ := List.append_inj' split rfl
      cases same
      exact ⟨tail, s, found, letter⟩
    · rw [tail, ← List.cons_append, ← List.append_assoc] at split
      obtain ⟨same, -⟩ := List.append_inj' split rfl
      have listed : Gate.h site.qubit ∈ others := by simp [same]
      cases noH _ listed

/-- In a network of reduced steps no angle is negated on account of an H gate of its
own step. -/
theorem ownTurn_of_reduced (reduced : ∀ s ∈ network.steps, s.Reduced n) (outcomes : List Bool)
    (k : Nat) : network.ownTurn n outcomes k = false := by
  apply odd_eq_false
  rintro ⟨site, outcome⟩ listed
  have mem : site ∈ network.sites := (List.of_mem_zip listed).1
  obtain ⟨tail, s, found, letter⟩ := site_of_reduced reduced mem
  have size : s.axis.size = n := (reduced s (List.mem_of_getElem? found)).axis
  have inside : site.qubit < n := by
    by_contra outside
    rw [Pauli.letter_of_size_le (by omega)] at letter
    cases letter
  have clash : network.clashesAt site.step
      ((Pauli.single n site.qubit .X).through site.tail) = true := by
    rw [clashesAt, found, tail, Option.any_some, Pauli.through_nil,
      Pauli.commutes_single size inside, letter]
    rfl
  by_cases own : site.step = k
  · simp only [← own, clash, Bool.not_true, Bool.and_false]
  · have other : (site.step == k) = false := by simpa using own
    simp only [other, Bool.false_and, Bool.and_false]

theorem adjusted_of_reduced (reduced : ∀ s ∈ network.steps, s.Reduced n) (outcomes : List Bool)
    (angles : List ℝ) : network.adjusted n outcomes angles = angles := by
  unfold adjusted
  apply List.ext_getElem
  · exact List.length_mapIdx
  · intro k _ _
    rw [List.getElem_mapIdx, ownTurn_of_reduced reduced, State.signed_false]

end Network

/-- **The circuit of a list of operators does what its network does.** Every list of
texts over the four letters, all of one length, is read, and if it is not empty, it gives
a network and a circuit. For all angles and outcomes, the run of the circuit has a result,
and it is that of the network up to a factor of modulus one. -/
theorem diagonalized_run_eq_network_run {n : Nat} {texts : List String} (nonempty : texts ≠ [])
    (letters : ∀ t ∈ texts, ∀ c ∈ t.toList, c ∈ ['I', 'X', 'Y', 'Z'])
    (lengths : ∀ t ∈ texts, t.length = n) :
    ∃ paulis network c, texts.mapM Pauli.read = .ok paulis ∧
      Network.ofPaulis paulis = .ok network ∧ network.circuit = .ok c ∧
      ∀ (angles : List ℝ) (outcomes : List Bool) (s : State ℂ),
        angles.length = texts.length → outcomes.length = c.gadgets.length →
        s.qubits = n → s.weight = 1 →
        ∃ run expected, s.runCircuit c angles outcomes = .ok run ∧
          s.runNetwork? network angles = some expected ∧ run.state.EqUpToPhase expected := by
  obtain ⟨paulis, read, written, sizes⟩ := Pauli.exists_mapM_read letters lengths
  have count : paulis.length = texts.length := by rw [← written, List.length_map]
  let network : Network := ⟨Network.reducedSteps [] paulis⟩
  have reduced : ∀ s ∈ network.steps, s.Reduced n := Network.reduced_of_mem sizes
  have carries : ∀ s ∈ network.steps, s.Carries n := fun s hs => (reduced s hs).toCarries
  have isDiagonal : ∀ s ∈ network.steps, s.axis.isDiagonal = true :=
    fun s hs => (reduced s hs).isDiagonal
  have width : network.width? = some n := by
    have given : paulis ≠ [] := by
      rintro rfl
      exact nonempty written.symm
    obtain ⟨p, rest, rfl⟩ := List.exists_cons_of_ne_nil given
    exact congrArg some (carries _ (List.mem_cons_self ..)).axis
  obtain ⟨c, built⟩ := Network.exists_circuit width carries isDiagonal
  refine ⟨paulis, network, c, read, Network.ofPaulis_eq sizes, built, ?_⟩
  intro angles outcomes s manyAngles manyOutcomes qubits normalized
  have enoughAngles : angles.length = network.size := by
    rw [manyAngles, ← count, Network.size, Network.length_reducedSteps]
  have enoughOutcomes : outcomes.length = network.hCount := by
    obtain ⟨u, f, unfolds, -, rfl⟩ := Network.circuit_eq_ok built
    rw [manyOutcomes]
    exact Network.length_gadgets unfolds width
  obtain ⟨ω, root, ran⟩ := network.runCircuit_eq_branch built width
    (fun s hs => (reduced s hs).distinct) enoughAngles enoughOutcomes qubits normalized
  rw [Network.adjusted_of_reduced reduced] at ran
  exact ⟨_, _, ran, network.runNetwork?_eq_branch carries isDiagonal enoughAngles qubits,
    State.eqUpToPhase_smul root ..⟩

/-- Two operators that commute, with one H gate for the first of them. -/
theorem diagonalized_run_of_xx_zz :
    let texts := ["XX", "ZZ"]
    let s : State ℂ := .ofFn 2 fun i => if i = 0 then 1 else 0
    s.weight = 1 ∧ ∃ paulis network c, texts.mapM Pauli.read = .ok paulis ∧
      Network.ofPaulis paulis = .ok network ∧ network.circuit = .ok c ∧ c.gadgets.length = 1 ∧
      ∃ run expected, s.runCircuit c [1, 2] [true] = .ok run ∧
        s.runNetwork? network [1, 2] = some expected ∧ run.state.EqUpToPhase expected := by
  intro texts s
  have letters : ∀ t ∈ texts, ∀ c ∈ t.toList, c ∈ ['I', 'X', 'Y', 'Z'] := by simp [texts]
  have lengths : ∀ t ∈ texts, t.length = 2 := by decide
  obtain ⟨paulis, network, c, read, diagonalized, built, runs⟩ :=
    diagonalized_run_eq_network_run (by simp [texts]) letters lengths
  have count : c.gadgets.length = 1 := by
    have read' : texts.mapM Pauli.read = .ok [⟨[.X, .X]⟩, ⟨[.Z, .Z]⟩] := rfl
    cases read.symm.trans read'
    have found : Network.ofPaulis [⟨[.X, .X]⟩, ⟨[.Z, .Z]⟩] = .ok
        ⟨[⟨[.cx 1 0, .h 1], ⟨[.I, .Z]⟩, false⟩, ⟨[], ⟨[.Z, .I]⟩, false⟩]⟩ := rfl
    cases diagonalized.symm.trans found
    obtain ⟨u, f, unfolds, -, rfl⟩ := Network.circuit_eq_ok built
    exact Network.length_gadgets unfolds rfl
  exact ⟨State.weight_zeros 2, paulis, network, c, read, diagonalized, built, count,
    runs [1, 2] [true] s rfl count.symm rfl (State.weight_zeros 2)⟩

end HadamardFree
