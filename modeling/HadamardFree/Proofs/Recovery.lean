import HadamardFree.Network.Diagonalize
import HadamardFree.Proofs.Lifetimes

/-!
# The network behind a stream

A stream still says which network it was emitted for. Its CZ gates tell where the qubits go, so
gates and axes can be brought back from slots to qubits, and a step ends with its rotation.

* `Step.ofStream`, `Network.ofStream`: the network read off a stream;
* `Emission.reads_back`: what was emitted for operations reads back as these operations;
* `Network.ofStream_stream`: unfolding is undone by reading;
* `stream_determines_network`: networks with the same stream are the same.
-/

namespace HadamardFree

/-! ## Reading -/

/-- The qubit that lives in the slot. -/
def Placement.qubit (m : Placement) (slot : Nat) : Nat :=
  m.slots.idxOf slot

/-- The operator on the qubits with the letters that `q` has in their slots. -/
def Placement.gather (m : Placement) (q : Pauli) : Pauli :=
  ⟨m.slots.map q.letter⟩

/-- Reads steps off a stream, from where the qubits are as in `m` and `piece` has been read of
the first step. -/
def Step.ofStream (m : Placement) (piece : List Gate) : List StreamOp → List Step
  | [] => []
  | .gate (.cz old fresh) :: rest =>
    ofStream (m.assign (m.qubit old) fresh) (piece ++ [.h (m.qubit old)]) rest
  | .gate g :: rest => ofStream m (piece ++ [g.rename m.qubit]) rest
  | .rotation r :: rest => ⟨piece, m.gather r.axis, r.sign⟩ :: ofStream m [] rest

theorem Step.ofStream_gate {g : Gate} (other : (StreamOp.gate g).cz? = none) (m : Placement)
    (piece : List Gate) (rest : List StreamOp) :
    ofStream m piece (.gate g :: rest) = ofStream m (piece ++ [g.rename m.qubit]) rest := by
  cases g with
  | cz a b => cases other
  | h | s | cx | meas => rfl

/-- Reads a network off its stream. Axes span the register, which has a slot more than there are
qubits for each CZ gate. -/
def Network.ofStream (stream : List StreamOp) : Network :=
  let width := ((StreamOp.rotations stream).head?.map fun r => r.axis.size).getD 0
  ⟨Step.ofStream (.home (width - (stream.filterMap StreamOp.cz?).length)) [] stream⟩

/-! ## One operation -/

theorem Gate.rename_rename (f h : Nat → Nat) (g : Gate) :
    (g.rename f).rename h = g.rename (h ∘ f) := by
  cases g <;> rfl

theorem Gate.rename_congr {f h : Nat → Nat} {g : Gate} (same : ∀ k ∈ g.qubits, f k = h k) :
    g.rename f = g.rename h := by
  cases g <;> simp_all [rename, qubits]

namespace Placement

variable {m : Placement} {width : Nat} {p q : Pauli}

theorem qubit_slot (distinct : m.slots.Nodup) {k : Nat} (hk : k < m.size) :
    m.qubit (m.slot k) = k := by
  have inside : k < m.slots.length := hk
  have held : m.slot k = m.slots[k] := by simp [slot, List.getD_eq_getElem?_getD, inside]
  rw [qubit, held, distinct.idxOf_getElem]

theorem rename_qubit (distinct : m.slots.Nodup) {g : Gate} (fits : g.fits m.size = true) :
    (g.rename m.slot).rename m.qubit = g := by
  have back : ∀ k ∈ g.qubits, (m.qubit ∘ m.slot) k = id k :=
    fun k hk => qubit_slot distinct (Gate.fits_iff.mp fits k hk)
  rw [Gate.rename_rename, Gate.rename_congr back, Gate.rename_id]

theorem Lifts.gather_eq (lifts : m.Lifts width p q) : m.gather q = p := by
  apply Pauli.ext_letter
  · exact (List.length_map ..).trans lifts.size.symm
  · intro k hk
    have inside : k < m.slots.length := hk.trans_eq (List.length_map ..)
    rw [← lifts.live k inside]
    simp [gather, Pauli.letter, slot, List.getD_eq_getElem?_getD, inside]

end Placement

/-! ## Whole streams -/

/-- The steps of a list of gates and rotations, where `piece` comes before the first. -/
def Op.steps (piece : List Gate) : List Op → List Step
  | [] => []
  | .gate _ g :: rest => steps (piece ++ [g]) rest
  | .rotation _ axis sign :: rest => ⟨piece, axis, sign⟩ :: steps [] rest

theorem Op.steps_map_append (piece more : List Gate) (step : Nat) (rest : List Op) :
    steps piece (more.map (gate step) ++ rest) = steps (piece ++ more) rest := by
  induction more generalizing piece with
  | nil => simp
  | cons g more ih => simp [steps, ih]

theorem Op.steps_ofSteps (first : Nat) (list : List Step) :
    steps [] (ofSteps first list) = list := by
  induction list generalizing first with
  | nil => rfl
  | cons s list ih =>
    rw [ofSteps, ofStep, List.append_assoc, steps_map_append, List.nil_append,
      List.singleton_append, steps, ih]

/-- What the pass emits reads back as what it was emitted for. -/
theorem Emission.reads_back {n : Nat} {ops : List Op} {r r' : Register} {es : List Emitted}
    (h : Emission n ops r es r') {retired : List Nat} (sound : r.Sound retired) (size : r.size = n)
    (gadgets : List Gadget) (piece : List Gate) :
    Step.ofStream r.placement piece (es.map (Emitted.toOp gadgets)) = Op.steps piece ops := by
  induction h generalizing retired piece with
  | nil r => rfl
  | @gate step g ops r r' es carries other rest ih =>
    subst size
    have back : (g.rename r.placement.slot).rename r.placement.qubit = g :=
      Placement.rename_qubit sound.slots_nodup carries.2
    have kind : (StreamOp.gate (g.rename r.placement.slot)).cz? = none := by
      cases g with
      | cz a b => cases carries.1
      | h | s | cx | meas => rfl
    rw [List.map_cons, Emitted.toOp, Step.ofStream_gate kind, back]
    exact ih sound rfl (piece ++ [g])
  | @hadamard step q ops r r' es flips correction hq free flipped left rest ih =>
    subst size
    have back : r.placement.qubit (r.placement.slot q) = q :=
      Placement.qubit_slot sound.slots_nodup hq
    rw [List.map_cons, Emitted.toOp, Step.ofStream, back]
    exact ih (sound.moved hq free).newOutcome (by simp) (piece ++ [.h q])
  | @rotation step axis lifted sign ops r r' es lifts rest ih =>
    rw [List.map_cons, Emitted.toOp, Step.ofStream, lifts.gather_eq, ih sound size]
    rfl

/-- Axes on the stream span the register. -/
theorem Emission.axis_size {n : Nat} {ops : List Op} {r r' : Register} {es : List Emitted}
    (h : Emission n ops r es r') (gadgets : List Gadget) :
    ∀ rotation ∈ StreamOp.rotations (es.map (Emitted.toOp gadgets)),
      rotation.axis.size = r.width := by
  induction h with
  | nil r => exact fun rotation h => absurd h List.not_mem_nil
  | gate carries other rest ih => exact ih
  | hadamard hq free flipped left rest ih => exact ih
  | rotation lifts rest ih => exact List.forall_mem_cons.mpr ⟨lifts.wide, ih⟩

namespace Network

variable {network : Network} {u : Unfolded}

theorem length_rotations (unfolds : network.unfolded = .ok u) :
    (StreamOp.rotations u.stream).length = network.size := by
  obtain ⟨n, width⟩ := exists_width unfolds
  obtain ⟨-, -, r', -, emission⟩ := network.unfolded_emission unfolds width
  have lengths := congrArg List.length (emission.rotations u.gadgets)
  rwa [List.length_map, List.length_map, Op.rotations_ofSteps, List.length_range'] at lengths

/-- Unfolding is undone by reading the stream. -/
theorem ofStream_stream (unfolds : network.unfolded = .ok u) : ofStream u.stream = network := by
  obtain ⟨n, width⟩ := exists_width unfolds
  obtain ⟨-, wide, r', -, emission⟩ := network.unfolded_emission unfolds width
  have start : (Register.start n u.width).Sound [] := Register.start_sound (by omega)
  have first : (StreamOp.rotations u.stream).head?.map (fun r => r.axis.size) = some u.width := by
    have count := length_rotations unfolds
    cases listed : StreamOp.rotations u.stream with
    | nil =>
      rw [listed] at count
      rw [width?, List.eq_nil_of_length_eq_zero count.symm] at width
      cases width
    | cons rotation later =>
      have spans := emission.axis_size u.gadgets rotation
      rw [← Unfolded.stream, listed] at spans
      exact congrArg some (spans (List.mem_cons_self ..))
  have gadgets : (u.stream.filterMap StreamOp.cz?).length = network.hCount := by
    rw [Unfolded.stream, emission.cz_gates, List.length_map]
    exact length_gadgets unfolds width
  have read := emission.reads_back start (Register.size_start ..) u.gadgets []
  rw [Op.steps_ofSteps] at read
  rw [ofStream, first, gadgets, wide, Option.getD_some, Nat.add_sub_cancel]
  exact congrArg Network.mk read

end Network

/-- **The stream determines the network.** Networks whose streams are equal have the same
steps, with the same gates on the same qubits, the same axes and the same signs. -/
theorem stream_determines_network {network network' : Network} {u u' : Unfolded}
    (unfolds : network.unfolded = .ok u) (unfolds' : network'.unfolded = .ok u')
    (same : u.stream = u'.stream) : network = network' := by
  rw [← Network.ofStream_stream unfolds, ← Network.ofStream_stream unfolds', same]

/-- A network written by hand, where a qubit moves twice, and the one that makes two operators
diagonal. -/
theorem stream_determines_diagonalized_network :
    let network : Network := ⟨[⟨[.cx 1 0, .h 1], ⟨[.I, .Z]⟩, false⟩,
      ⟨[.cx 1 0, .h 1], ⟨[.Z, .Z]⟩, false⟩]⟩
    ∃ network' u u', Network.ofPaulis [⟨[.X, .X]⟩, ⟨[.Z, .X]⟩] = .ok network' ∧
      network.unfolded = .ok u ∧ network'.unfolded = .ok u' ∧ u.stream = u'.stream ∧
      network = network' := by
  intro network
  obtain ⟨network', u, u', diagonalized, unfolds, unfolds', same⟩ : ∃ network' u u',
      Network.ofPaulis [⟨[.X, .X]⟩, ⟨[.Z, .X]⟩] = .ok network' ∧ network.unfolded = .ok u ∧
      network'.unfolded = .ok u' ∧ u.stream = u'.stream := ⟨_, _, _, rfl, rfl, rfl, by decide⟩
  exact ⟨network', u, u', diagonalized, unfolds, unfolds', same,
    stream_determines_network unfolds unfolds' same⟩

end HadamardFree
