import HadamardFree.Proofs.Positions

/-!
# Byproducts read off the stream

The flips and corrections of a circuit can be found again from its stream alone: start
with an X on the fresh slot of a CZ gate and follow it through the operations behind.

* `Unfolded.GadgetAt.replay_correction`: at the end the X has become the correction;
* `Unfolded.GadgetAt.mem_flips_rest_iff`: it flips the rotations that it does not commute
  with when it comes to them;
* `stream_replays_byproducts`: the same for all measurements, from the stream and the
  numbers of the CZ gates only.
-/

namespace HadamardFree

namespace Unfolded.GadgetAt

variable {u : Unfolded} {n i : Nat} {rest : List Op} {r r' : Register} {g : Gadget}

theorem lifts_start (h : u.GadgetAt n rest r r' i g) :
    r.placement.Lifts r.width (.single n g.qubit .X) (.single r.width g.fresh .X) := by
  obtain ⟨retired, sound, -⟩ := h.sound
  have lifts := sound.lifts_single (h.qubit.trans_eq h.size.symm) .X
  rwa [h.fresh, h.size] at lifts

/-- The X behind the gadget, after `j` more operations of the stream. -/
theorem reached (h : u.GadgetAt n rest r r' i g) (j : Nat) :
    ∃ r₁ retired operator,
      Emission n (rest.drop j) r₁ (u.emitted.drop (i + 1 + j)) r' ∧
      r₁.Sound retired ∧ r₁.width = u.width ∧
      (StreamOp.rotations (u.stream.take (i + 1 + j))).length =
        g.step + ((rest.take j).filterMap Op.rotation?).length ∧
      Pauli.replay (.single u.width g.fresh .X) ((u.stream.drop (i + 1)).take j) = .ok operator ∧
      r₁.placement.Lifts u.width ((Pauli.single n g.qubit .X).through (Op.gates (rest.take j)))
        operator := by
  obtain ⟨retired, sound, -⟩ := h.sound
  obtain ⟨r₁, reached⟩ := h.emission.reached sound h.size u.gadgets j
  obtain ⟨operator, replayed, lifts⟩ := reached.replays _ _ h.lifts_start
  rw [h.width] at replayed lifts
  have segment : (u.stream.drop (i + 1)).take j =
      ((u.emitted.drop (i + 1)).take j).map (Emitted.toOp u.gadgets) := by
    rw [stream, ← List.map_drop, List.map_take]
  refine ⟨r₁, _, operator, ?_, reached.sound, reached.width.trans h.width, ?_, ?_, lifts⟩
  · rw [← List.drop_drop]
    exact reached.rest
  · rw [List.take_add, StreamOp.rotations, List.filterMap_append, List.length_append, segment]
    exact congrArg₂ (· + ·) h.step reached.rotations
  · rw [segment]
    exact replayed

theorem replay_correction (h : u.GadgetAt n rest r r' i g) :
    Pauli.replay (.single u.width g.fresh .X) (u.stream.drop (i + 1)) = .ok g.correction := by
  obtain ⟨r₁, retired, operator, done, -, -, -, replayed, lifts⟩ := h.reached u.stream.length
  have nothing : u.emitted.drop (i + 1 + u.stream.length) = [] := by
    apply List.drop_eq_nil_of_le
    rw [stream, List.length_map]
    omega
  rw [nothing] at done
  obtain ⟨read, rfl⟩ := done.nil_inv
  have whole : rest.take u.stream.length = rest := by
    apply List.take_of_length_le
    exact List.drop_eq_nil_iff.mp read
  rw [whole] at lifts
  rw [List.take_of_length_le (by rw [List.length_drop]; omega)] at replayed
  rw [replayed, lifts.unique h.correction]

/-- The rotations behind the gadget that its X flips are those whose axis does not commute
with the X when it comes there on the stream. -/
theorem mem_flips_rest_iff (h : u.GadgetAt n rest r r' i g) {j : Nat} {rotation : Rotation}
    (found : u.stream[i + 1 + j]? = some (.rotation rotation)) :
    (StreamOp.rotations (u.stream.take (i + 1 + j))).length ∈
        Op.flips (.single n g.qubit .X) rest ↔
      ∃ operator, Pauli.replay (.single u.width g.fresh .X) ((u.stream.drop (i + 1)).take j) =
          .ok operator ∧ rotation.axis.commutes operator = false := by
  obtain ⟨r₁, retired, operator, emission, sound, wide, count, replayed, lifts⟩ := h.reached j
  obtain ⟨e, here, own⟩ : ∃ e, u.emitted[i + 1 + j]? = some e ∧
      e.toOp u.gadgets = .rotation rotation := by
    rw [stream, List.getElem?_map] at found
    exact Option.map_eq_some_iff.mp found
  cases e with
  | gate | gadget => cases own
  | rotation step lifted sign =>
    cases own
    obtain ⟨axis, later, ops, axisLifts⟩ :=
      Emission.rotation_inv (drop_eq_cons_of_getElem? here ▸ emission)
    have read : rest[j]? = some (.rotation step axis sign) := by
      rw [← Nat.add_zero j, ← List.getElem?_drop, ops]
      rfl
    have number : step = g.step + ((rest.take j).filterMap Op.rotation?).length := by
      have numbered := h.numbered.drop j
      rw [ops] at numbered
      exact numbered.1
    have distinct : (rest.filterMap Op.rotation?).Nodup := by
      rw [h.numbered.rotations]
      exact List.nodup_range'
    have carries : ∀ g' ∈ Op.gates rest, g'.Carries (Pauli.single n g.qubit .X).size := by
      rw [Pauli.size_single]
      exact h.carries
    have same : lifted.commutes operator =
        axis.commutes ((Pauli.single n g.qubit .X).through (Op.gates (rest.take j))) := by
      rw [wide] at axisLifts
      exact axisLifts.commutes_eq sound.slots_nodup (fun j hj => wide ▸ sound.slot_lt hj) lifts
    rw [count, ← number, Op.mem_flips_iff_of_getElem? carries distinct read, ← same]
    constructor
    · intro clash
      exact ⟨operator, replayed, clash⟩
    · rintro ⟨operator', replayed', clash⟩
      cases replayed.symm.trans replayed'
      exact clash

end Unfolded.GadgetAt

/-! ## The whole report -/

/-- Measurement `m`, whose H gate stands in step `origin`, as it can be read off the stream:
operation `i` is CZ gate number `m`, and an X in its second slot is followed from there. -/
structure Unfolded.Replays (u : Unfolded) (m origin i fresh : Nat) : Prop where
  gate : ∃ retired, u.stream[i]? = some (.gate (.cz retired fresh))
  number : ((u.stream.take i).filterMap StreamOp.cz?).length = m
  correction : ∃ left, u.corrections[m]? = some left ∧
    Pauli.replay (.single u.width fresh .X) (u.stream.drop (i + 1)) = .ok left
  /-- Rotation number `k`, which is operation `j` of the stream. -/
  flips : ∀ j rotation, u.stream[j]? = some (.rotation rotation) →
    let k := (StreamOp.rotations (u.stream.take j)).length
    (m ∈ rotation.flips ↔ k = origin ∨ origin < k ∧ ∃ operator,
      Pauli.replay (.single u.width fresh .X) ((u.stream.take j).drop (i + 1)) = .ok operator ∧
        rotation.axis.commutes operator = false)

theorem Unfolded.GadgetAt.replays {network : Network} {u : Unfolded} {n m i : Nat} {rest : List Op}
    {r r' : Register} {g : Gadget} (unfolds : network.unfolded = .ok u)
    (number : u.gadgets[m]? = some g) (h : u.GadgetAt n rest r r' i g)
    (count : ((u.stream.take i).filterMap StreamOp.cz?).length = m) :
    u.Replays m g.step i g.fresh := by
  refine ⟨⟨g.retired, h.gate⟩, count, ⟨g.correction, ?_, h.replay_correction⟩, ?_⟩
  · rw [corrections, Gadget.corrections, List.getElem?_map, number]
    rfl
  intro j rotation found k
  obtain ⟨_, width⟩ := Network.exists_width unfolds
  obtain ⟨-, -, ids, -⟩ := Network.slots_partition unfolds width
  have listed : (StreamOp.rotations u.stream)[k]? = some rotation :=
    getElem?_filterMap_take found rfl
  have own : m ∈ rotation.flips ↔ k ∈ g.flips := by
    rw [Network.flips_of_rotation unfolds listed, Gadget.mem_flipping_iff ids]
    simp [number]
  rw [own]
  by_cases behind : i + 1 ≤ j
  · obtain ⟨j, rfl⟩ := Nat.exists_eq_add_of_le behind
    have segment : (u.stream.take (i + 1 + j)).drop (i + 1) = (u.stream.drop (i + 1)).take j := by
      rw [List.drop_take, Nat.add_sub_cancel_left]
    have le : g.step ≤ k := by
      obtain ⟨r₁, retired, operator, -, -, -, counted, -⟩ := h.reached j
      omega
    rw [h.flips, segment, h.mem_flips_rest_iff found]
    constructor
    · rintro (same | clash)
      · exact .inl same
      · exact (Nat.eq_or_lt_of_le le).imp Eq.symm fun lt => ⟨lt, clash⟩
    · exact Or.imp_right And.right
  · -- A rotation in front of the gadget is of an earlier step, which nothing behind can flip.
    have before : k < g.step := by
      rw [← h.step]
      exact length_filterMap_take_lt found rfl (Nat.lt_of_not_le behind)
    constructor
    · intro flipped
      exact absurd (h.step_le flipped) (Nat.not_le_of_lt before)
    · rintro (same | ⟨later, -⟩) <;> omega

theorem Gadget.flipping_sublist (gadgets : List Gadget) (k : Nat) :
    (flipping gadgets k).Sublist (gadgets.map id) :=
  List.filter_sublist.map id

/-- The flips of a rotation are in order, and each has its correction. -/
theorem Network.flips_increasing {network : Network} {u : Unfolded}
    (unfolds : network.unfolded = .ok u) {rotation : Rotation}
    (h : rotation ∈ StreamOp.rotations u.stream) :
    rotation.flips.Pairwise (· < ·) ∧ ∀ id ∈ rotation.flips, id < u.corrections.length := by
  obtain ⟨n, width⟩ := exists_width unfolds
  obtain ⟨-, -, ids, -⟩ := slots_partition unfolds width
  obtain ⟨k, found⟩ := List.getElem?_of_mem h
  have part := Gadget.flipping_sublist u.gadgets k
  rw [← flips_of_rotation unfolds found, ids] at part
  constructor
  · exact (List.pairwise_lt_range' 1).sublist part
  · intro id flipped
    rw [Unfolded.length_corrections, length_gadgets unfolds width]
    simpa using List.mem_range'_1.mp (part.subset flipped)

/-- **Byproducts can be read off the stream.** For each measurement, an X in the fresh slot
of its CZ gate ends up as the correction when it is followed through the rest of the stream.
It flips the rotation of its own step, and a later one exactly if the X does not commute with
the axis when it comes there. The flips of each rotation are in order and have their
corrections, so outcomes for all corrections decide the sign of every term. -/
theorem stream_replays_byproducts {network : Network} {u : Unfolded}
    (unfolds : network.unfolded = .ok u) :
    (∀ m, m < u.corrections.length → ∃ site i fresh, network.sites[m]? = some site ∧
      u.Replays m site.step i fresh) ∧
    (∀ rotation ∈ StreamOp.rotations u.stream, rotation.flips.Pairwise (· < ·) ∧
      ∀ id ∈ rotation.flips, id < u.corrections.length) ∧
    ∀ f, Folded.ofStream u.stream u.width = .ok f → ∀ t ∈ f.poly.terms, ∀ outcomes : List Bool,
      outcomes.length = u.corrections.length → ∃ negated, t.negated? outcomes = some negated := by
  refine ⟨?_, fun rotation => Network.flips_increasing unfolds, ?_⟩
  · intro m hm
    rw [Unfolded.length_corrections] at hm
    have number := List.getElem?_eq_getElem hm
    obtain ⟨site, listed, same⟩ := Network.site_of_gadget unfolds number
    obtain ⟨n, rest, r, r', i, count, behind⟩ := Network.gadget_behind unfolds number
    exact ⟨site, i, _, listed, same ▸ behind.replays unfolds number count⟩
  · intro f folded t ht outcomes enough
    obtain ⟨k, found⟩ := List.getElem?_of_mem ht
    obtain ⟨rotation, listed, flips, -⟩ := Folded.rotation_of_term folded found
    have known := (Network.flips_increasing unfolds (List.mem_of_getElem? listed)).2
    rw [flips, ← enough] at known
    exact ⟨_, flippedSign?_eq known⟩

/-- The X of the first H gate passes a CX gate and the gadget of a second H gate. -/
theorem stream_replays_past_second_gadget :
    let network : Network := ⟨[⟨[.h 0], ⟨[.Z, .I]⟩, false⟩, ⟨[.cx 0 1, .h 0], ⟨[.I, .Z]⟩, true⟩,
      ⟨[.s 1], ⟨[.Z, .Z]⟩, false⟩]⟩
    ∃ u, network.unfolded = .ok u ∧
      u.corrections = [⟨[.I, .Y, .I, .Z]⟩, ⟨[.I, .I, .I, .X]⟩] ∧
      (∃ site i fresh, network.sites[0]? = some site ∧ u.Replays 0 site.step i fresh) ∧
      (∀ rotation ∈ StreamOp.rotations u.stream, rotation.flips.Pairwise (· < ·) ∧
        ∀ id ∈ rotation.flips, id < 2) ∧
      ∀ f, Folded.ofStream u.stream u.width = .ok f → ∀ t ∈ f.poly.terms,
        ∃ negated, t.negated? [true, false] = some negated := by
  intro network
  obtain ⟨u, unfolds, corrections⟩ : ∃ u, network.unfolded = .ok u ∧
      u.corrections = [⟨[.I, .Y, .I, .Z]⟩, ⟨[.I, .I, .I, .X]⟩] := ⟨_, rfl, by decide⟩
  obtain ⟨replays, flips, signs⟩ := stream_replays_byproducts unfolds
  rw [corrections] at replays flips signs
  exact ⟨u, unfolds, corrections, replays 0 (by decide), flips,
    fun f folded t ht => signs f folded t ht [true, false] rfl⟩

end HadamardFree
