import HadamardFree.Proofs.Causality

/-!
# How long a slot is in use

Each slot of the register is used from one CZ gate to another: it is prepared at the start,
the first CZ gate takes it into use, and the second retires it for the measurement at the end.

* `Emission.becomes`: what each gate and each rotation of the network becomes;
* `Emission.avoids_around`: nothing acts on a slot before the CZ gate that takes it into use,
  or behind the one that retires it;
* `slot_lifetimes`: the slots, gates and numbers of a whole circuit.
-/

namespace HadamardFree

/-! ## One operation for each -/

/-- What a gate or a rotation of the network can become on the stream. An H gate becomes a CZ
gate; an S or CX gate stays one, on other qubits, and a rotation keeps its sign. -/
inductive Op.Becomes : Op → StreamOp → Prop
  | gate {step : Nat} {g : Gate} (elementary : g.isElementary = true) (other : g.isH = false)
      (f : Nat → Nat) : Becomes (.gate step g) (.gate (g.rename f))
  | hadamard (step q retired fresh : Nat) :
      Becomes (.gate step (.h q)) (.gate (.cz retired fresh))
  | rotation (step : Nat) (axis lifted : Pauli) (flips : List Nat) (sign : Bool) :
      Becomes (.rotation step axis sign) (.rotation ⟨lifted, flips, sign⟩)

theorem Op.Becomes.middle {op : Op} {g : Gate} (h : op.Becomes (.gate g)) :
    g.isH = false ∧ ∀ k id, g ≠ .meas k id := by
  cases h with
  | @gate step g elementary other f =>
    cases g with
    | h => cases other
    | cz | meas => cases elementary
    | s | cx => exact ⟨rfl, fun _ _ => by simp [Gate.rename]⟩
  | hadamard => exact ⟨rfl, by simp⟩

namespace Emission

variable {n : Nat} {ops : List Op} {r r' : Register} {es : List Emitted} {g : Gadget}

theorem becomes (h : Emission n ops r es r') (gadgets : List Gadget) :
    List.Forall₂ Op.Becomes ops (es.map (Emitted.toOp gadgets)) := by
  induction h with
  | nil r => exact .nil
  | gate carries other rest ih => exact .cons (.gate carries.1 other _) ih
  | hadamard hq free flipped left rest ih => exact .cons (.hadamard ..) ih
  | rotation lifts rest ih => exact .cons (.rotation ..) ih

/-- The CZ gates of the stream, in order. -/
theorem cz_gates (h : Emission n ops r es r') (gadgets : List Gadget) :
    (es.map (Emitted.toOp gadgets)).filterMap StreamOp.cz? =
      (Emitted.gadgets es).map fun g => (g.retired, g.fresh) := by
  rw [List.filterMap_map, Emitted.gadgets, List.map_filterMap]
  apply List.filterMap_congr
  intro e he
  have same := h.isSome_cz? gadgets e he
  cases e with
  | gate g => simpa [Emitted.gadget?] using same
  | gadget | rotation => rfl

/-! ## Slots before and after -/

theorem allocated_le_fresh (h : Emission n ops r es r') (hg : .gadget g ∈ es) :
    r.allocated ≤ g.fresh := by
  have listed : g.fresh ∈ (Emitted.gadgets es).map Gadget.fresh :=
    List.mem_map_of_mem (List.mem_filterMap.mpr ⟨_, hg, rfl⟩)
  rw [h.numbered.2] at listed
  exact (List.mem_range'_1.mp listed).1

/-- Nothing acts on the fresh slot of a gadget before it, or on the retired one behind it. -/
theorem avoids_around (h : Emission n ops r es r') {retired : List Nat} (sound : r.Sound retired)
    (size : r.size = n) (gadgets : List Gadget) {before after : List Emitted}
    (split : es = before ++ .gadget g :: after) :
    (∀ op ∈ before.map (Emitted.toOp gadgets), op.Avoids g.fresh) ∧
      ∀ op ∈ after.map (Emitted.toOp gadgets), op.Avoids g.retired := by
  induction h generalizing retired before with
  | nil r => simp at split
  | @gate step g' ops r r' es carries other rest ih =>
    cases before with
    | nil => cases split
    | cons e before =>
      obtain ⟨rfl, tail⟩ := List.cons.inj split
      obtain ⟨unborn, dead⟩ := ih sound size tail
      have later := rest.allocated_le_fresh (g := g) (by simp [tail])
      refine ⟨List.forall_mem_cons.mpr ⟨?_, unborn⟩, dead⟩
      intro used
      rw [Gate.qubits_rename] at used
      obtain ⟨k, hk, same⟩ := List.mem_map.mp used
      have inside : k < r.placement.size :=
        (Gate.fits_iff.mp carries.2 k hk).trans_eq size.symm
      have born := sound.slot_lt_allocated (Placement.slot_mem inside)
      omega
  | @hadamard step q ops r r' es flips correction hq free flipped left rest ih =>
    have inside : q < r.placement.size := hq.trans_eq size.symm
    have moved := (sound.moved inside free).newOutcome
    cases before with
    | nil =>
      cases split
      refine ⟨fun op hop => absurd hop List.not_mem_nil, ?_⟩
      exact rest.avoids moved (by simpa using size)
        (List.mem_append_right _ (List.mem_singleton.mpr rfl)) gadgets
    | cons e before =>
      obtain ⟨rfl, tail⟩ := List.cons.inj split
      obtain ⟨unborn, dead⟩ := ih moved (by simpa using size) tail
      have later : r.allocated + 1 ≤ g.fresh := rest.allocated_le_fresh (by simp [tail])
      refine ⟨List.forall_mem_cons.mpr ⟨?_, unborn⟩, dead⟩
      have born := sound.slot_lt_allocated (Placement.slot_mem inside)
      intro used
      rcases List.mem_cons.mp used with old | used
      · have same : g.fresh = r.placement.slot q := old
        omega
      · have same : g.fresh = r.allocated := List.mem_singleton.mp used
        omega
  | @rotation step axis lifted sign ops r r' es lifts rest ih =>
    cases before with
    | nil => cases split
    | cons e before =>
      obtain ⟨rfl, tail⟩ := List.cons.inj split
      obtain ⟨unborn, dead⟩ := ih sound size tail
      have later := rest.allocated_le_fresh (g := g) (by simp [tail])
      refine ⟨List.forall_mem_cons.mpr ⟨?_, unborn⟩, dead⟩
      apply lifts.idle
      intro live
      have born := sound.slot_lt_allocated live
      omega

end Emission

/-! ## Whole circuits -/

/-- The slots of a circuit for a network on `n` qubits, where gadget number `i` retires the
slot `retired[i]`. -/
structure Network.UsesSlots (network : Network) (n : Nat) (u : Unfolded) (retired : List Nat) :
    Prop where
  width : u.width = n + network.hCount
  predicted : network.slotsNeeded? = some u.width
  beginning : u.beginning = (List.range' n network.hCount).map .h
  middle : ∀ g, .gate g ∈ u.stream → g.isH = false ∧ ∀ k id, g ≠ .meas k id
  gadgets : u.stream.filterMap StreamOp.cz? = retired.zip (List.range' n network.hCount)
  ending : u.ending = retired.zipIdx.flatMap fun (slot, id) => [.h slot, .meas slot id]
  count : retired.length = network.hCount
  partition : (retired ++ u.layout.slots).Perm (List.range u.width)
  lifetime : ∀ before old fresh after, u.stream = before ++ .gate (.cz old fresh) :: after →
    (∀ op ∈ before, op.Avoids fresh) ∧ ∀ op ∈ after, op.Avoids old
  corrections : u.corrections.length = network.hCount
  operations : List.Forall₂ Op.Becomes (Op.ofSteps 0 network.steps) u.stream

theorem Gadget.readout_eq {gadgets : List Gadget} {count : Nat}
    (numbered : gadgets.map Gadget.id = List.range' 0 count) :
    readout gadgets = (gadgets.map Gadget.retired).zipIdx.flatMap fun (slot, id) =>
      [.h slot, .meas slot id] := by
  have length : gadgets.length = count := by
    have lengths := congrArg List.length numbered
    rwa [List.length_map, List.length_range'] at lengths
  rw [List.zipIdx_eq_zip_range', List.length_map, length, ← numbered, List.zip_map',
    List.flatMap_map]
  rfl

/-- **Slots are used once.** There is a slot for each qubit and for each H gate, and the slots
above the qubits are prepared in order. On the stream, gadget number `i` is a CZ gate into slot
`n + i`; the slots that these gates retire are measured at the end, in the same order, and with
the layout they are all slots, each once. Before its CZ gate nothing touches a fresh slot, and
behind it nothing touches the old one. Apart from the CZ gates the stream has the S and CX
gates and the rotations of the network, in order and with their signs. -/
theorem slot_lifetimes {network : Network} {u : Unfolded} {n : Nat}
    (unfolds : network.unfolded = .ok u) (width : network.width? = some n) :
    ∃ retired, network.UsesSlots n u retired := by
  obtain ⟨-, wide, r, -, emission⟩ := network.unfolded_emission unfolds width
  have start : (Register.start n u.width).Sound [] := Register.start_sound (by omega)
  obtain ⟨-, slots, ids, fresh⟩ := Network.slots_partition unfolds width
  have becomes := emission.becomes u.gadgets
  have count : u.gadgets.length = network.hCount := Network.length_gadgets unfolds width
  refine ⟨u.gadgets.map Gadget.retired, wide, ?_, Network.beginning_eq unfolds width, ?_, ?_,
    Gadget.readout_eq ids, by rwa [List.length_map], slots, ?_,
    (Unfolded.length_corrections u).trans count, becomes⟩
  · rw [Network.slotsNeeded?, width, wide]
    rfl
  · intro g hg
    obtain ⟨i, found⟩ := List.getElem?_of_mem hg
    obtain ⟨op, -, own⟩ := forall₂_getElem? becomes.flip found
    exact own.middle
  · rw [← fresh, List.zip_map']
    exact emission.cz_gates u.gadgets
  · intro before old new after split
    obtain ⟨front, rest, emitted, rfl, tail⟩ := List.map_eq_append_iff.mp split
    obtain ⟨e, back, rfl, own, rfl⟩ := List.map_eq_cons_iff.mp tail
    have gadget : ∃ g, e = .gadget g ∧ g.retired = old ∧ g.fresh = new := by
      have same := emission.isSome_cz? u.gadgets e (by simp [emitted])
      rw [own] at same
      cases e with
      | gate | rotation => cases same
      | gadget g =>
        cases own
        exact ⟨g, rfl, rfl, rfl⟩
    obtain ⟨g, rfl, rfl, rfl⟩ := gadget
    exact emission.avoids_around start (Register.size_start ..) u.gadgets emitted

/-- Two H gates on one qubit in the same piece: slot 2 is taken into use by the first gadget
and retired by the second. -/
theorem slot_lifetimes_of_repeated_hadamard :
    let network : Network := ⟨[⟨[.h 0, .s 0, .h 0], ⟨[.Z, .I]⟩, false⟩,
      ⟨[.cx 0 1, .h 1], ⟨[.Z, .Z]⟩, true⟩]⟩
    ∃ u, network.unfolded = .ok u ∧ network.width? = some 2 ∧
      u.stream.filterMap StreamOp.cz? = [(0, 2), (2, 3), (1, 4)] ∧
      ∃ retired, network.UsesSlots 2 u retired := by
  intro network
  obtain ⟨u, unfolds, gadgets⟩ : ∃ u, network.unfolded = .ok u ∧
      u.stream.filterMap StreamOp.cz? = [(0, 2), (2, 3), (1, 4)] := ⟨_, rfl, by decide⟩
  exact ⟨u, unfolds, rfl, gadgets, slot_lifetimes unfolds rfl⟩

end HadamardFree
