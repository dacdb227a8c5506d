import HadamardFree.Proofs.Positions

/-!
# Measurements come in time

A term of the phase polynomial may have to wait for outcomes. The slots that give them
can always be measured by then, since no term acts on a slot once it is retired, not even
when later CX gates have been folded into the supports:

* `Emission.avoids`: nothing is emitted on a retired slot;
* `Folded.Idle`: from some term on, none acts on the slot, which `Folded.Idle.absorbed`
  and `Folded.Idle.foldl` keep through operations that avoid it;
* `feed_forward_is_causal`: the main statement.
-/

namespace HadamardFree

/-! ## Retired slots -/

/-- The operation leaves the slot alone. -/
def StreamOp.Avoids (slot : Nat) : StreamOp → Prop
  | .gate g => slot ∉ g.qubits
  | .rotation r => r.axis.letter slot = .I

/-- Once a slot is retired, nothing is emitted on it. -/
theorem Emission.avoids {n : Nat} {ops : List Op} {r r' : Register} {es : List Emitted}
    (h : Emission n ops r es r') {retired : List Nat} (sound : r.Sound retired) (size : r.size = n)
    {slot : Nat} (old : slot ∈ retired) (gadgets : List Gadget) :
    ∀ op ∈ es.map (Emitted.toOp gadgets), op.Avoids slot := by
  induction h generalizing retired with
  | nil r => exact fun op hop => by cases hop
  | @gate step g ops r r' es carries other rest ih =>
    rw [List.map_cons, List.forall_mem_cons]
    refine ⟨?_, ih sound size old⟩
    intro used
    rw [Gate.qubits_rename] at used
    obtain ⟨k, hk, rfl⟩ := List.mem_map.mp used
    have inside : k < r.placement.size :=
      (Gate.fits_iff.mp carries.2 k hk).trans_eq size.symm
    exact sound.not_mem_retired (Placement.slot_mem inside) old
  | @hadamard step q ops r r' es flips correction hq free flipped left rest ih =>
    rw [List.map_cons, List.forall_mem_cons]
    have inside : q < r.placement.size := hq.trans_eq size.symm
    constructor
    · intro used
      rcases List.mem_cons.mp used with rfl | used
      · exact sound.not_mem_retired (Placement.slot_mem inside) old
      · obtain rfl : slot = r.allocated := List.mem_singleton.mp used
        exact Nat.lt_irrefl _ (sound.mem_iff.mp (.inl old))
    · exact ih (sound.moved inside free).newOutcome (by simpa using size)
        (List.mem_append_left _ old)
  | @rotation step axis lifted sign ops r r' es lifts rest ih =>
    rw [List.map_cons, List.forall_mem_cons]
    refine ⟨?_, ih sound size old⟩
    exact lifts.idle slot fun live => sound.not_mem_retired live old

/-! ## Folding around a slot -/

/-- A fold changes the support on the control of the gate only. -/
theorem Term.getElem?_support_passCX {c slot : Nat} (other : c ≠ slot) (d : Nat) (t : Term) :
    (t.passCX c d).support[slot]? = t.support[slot]? := by
  simp [passCX, other]

namespace Folded

/-- The terms from number `first` on do not act on the slot. -/
def Idle (slot first : Nat) (f : Folded) : Prop :=
  ∀ k t, first ≤ k → f.poly.terms[k]? = some t → t.support[slot]? = some false

theorem Idle.absorbed {slot first : Nat} {f : Folded} (h : f.Idle slot first) {op : StreamOp}
    (folds : op.Folds f.poly.width) (avoids : op.Avoids slot) (inside : slot < f.poly.width) :
    (f.absorbed op).Idle slot first := by
  intro k t hk ht
  cases op with
  | gate g =>
    cases g with
    | cx c d =>
      have other : c ≠ slot := by
        rintro rfl
        exact avoids (List.mem_cons_self ..)
      obtain ⟨t', ht', rfl⟩ : ∃ t', f.poly.terms[k]? = some t' ∧ t'.passCX c d = t := by
        rw [Folded.absorbed, PhasePolynomial.passGate, PhasePolynomial.passCX, List.getElem?_map] at ht
        exact Option.map_eq_some_iff.mp ht
      exact (Term.getElem?_support_passCX other d t').trans (h k t' hk ht')
    | h | s | cz | meas => exact h k t hk ht
  | rotation r =>
    rw [Folded.absorbed] at ht
    by_cases old : k < f.poly.terms.length
    · rw [List.getElem?_append_left old] at ht
      exact h k t hk ht
    · rw [List.getElem?_append_right (Nat.le_of_not_lt old), List.getElem?_singleton] at ht
      obtain ⟨-, rfl⟩ : _ ∧ _ = t := by simpa using ht
      have letter : r.axis.letters[slot]? = some .I := by
        have found := Pauli.get?_eq_letter (inside.trans_eq folds.1.symm)
        rwa [avoids] at found
      simp [Pauli.zBits, letter, Letter.z]

theorem Idle.foldl {slot first : Nat} {f : Folded} (h : f.Idle slot first)
    {stream : List StreamOp} (folds : ∀ op ∈ stream, op.Folds f.poly.width)
    (avoids : ∀ op ∈ stream, op.Avoids slot) (inside : slot < f.poly.width) :
    (stream.foldl Folded.absorbed f).Idle slot first := by
  induction stream generalizing f with
  | nil => exact h
  | cons op stream ih =>
    rw [List.forall_mem_cons] at folds avoids
    apply ih (h.absorbed folds.1 avoids.1 inside)
    · rw [width_absorbed]
      exact folds.2
    · exact avoids.2
    · rw [width_absorbed]
      exact inside

/-- If the stream avoids the slot behind some point, so do the terms from there on. -/
theorem idle_of_ofStream {slot width i : Nat} {stream : List StreamOp} {f : Folded}
    (folded : ofStream stream width = .ok f) (inside : slot < width)
    (avoids : ∀ op ∈ stream.drop i, op.Avoids slot) :
    f.Idle slot (StreamOp.rotations (stream.take i)).length := by
  obtain ⟨folds, rfl⟩ := ofStream_eq_ok_iff.mp folded
  rw [← List.take_append_drop i stream, List.foldl_append, List.take_append_drop]
  have width' := width_foldl ⟨.empty width, []⟩ (stream.take i)
  apply Idle.foldl
  · -- So far there are no terms from that number on.
    intro k t hk ht
    have size := (size_foldl ⟨.empty width, []⟩ (stream.take i)).trans (Nat.zero_add _)
    have bound := (List.getElem?_eq_some_iff.mp ht).1
    rw [PhasePolynomial.size] at size
    omega
  · rw [width']
    exact fun op hop => folds op (List.mem_of_mem_drop hop)
  · exact avoids
  · rw [width']
    exact inside

end Folded

/-! ## Circuits -/

/-- At the end, measurement `m` reads the slot and no other one; its H gate stands in step
`origin`. -/
structure Network.Measures (network : Network) (u : Unfolded) (m slot origin : Nat) : Prop where
  readout : ∀ s, .meas s m ∈ u.ending ↔ s = slot
  site : ∃ site, network.sites[m]? = some site ∧ site.step = origin

namespace Network

variable {network : Network} {u : Unfolded} {m : Nat} {g : Gadget}

theorem measures_of_gadget (unfolds : network.unfolded = .ok u) (number : u.gadgets[m]? = some g) :
    network.Measures u m g.retired g.step := by
  obtain ⟨n, width⟩ := exists_width unfolds
  obtain ⟨-, -, ids, -⟩ := slots_partition unfolds width
  refine ⟨?_, site_of_gadget unfolds number⟩
  intro s
  rw [Unfolded.ending, Gadget.readout, List.mem_flatMap]
  constructor
  · rintro ⟨g', hg', read⟩
    obtain ⟨rfl, rfl⟩ : s = g'.retired ∧ m = g'.id := by simpa using read
    obtain ⟨i, hi⟩ := List.getElem?_of_mem hg'
    rw [Gadget.id_of_numbered ids hi, hi] at number
    rw [Option.some.inj number]
  · rintro rfl
    refine ⟨g, List.mem_of_getElem? number, ?_⟩
    rw [Gadget.id_of_numbered ids number]
    exact List.mem_cons_of_mem _ (List.mem_singleton.mpr rfl)

theorem retired_lt (unfolds : network.unfolded = .ok u) (hg : g ∈ u.gadgets) :
    g.retired < u.width := by
  obtain ⟨n, width⟩ := exists_width unfolds
  obtain ⟨-, slots, -⟩ := slots_partition unfolds width
  exact List.mem_range.mp (slots.subset (List.mem_append_left _ (List.mem_map_of_mem hg)))

/-- From the step of a gadget on, no term acts on the slot that it has retired. -/
theorem idle_of_gadget (unfolds : network.unfolded = .ok u) {f : Folded}
    (folded : Folded.ofStream u.stream u.width = .ok f) (number : u.gadgets[m]? = some g) :
    f.Idle g.retired g.step := by
  obtain ⟨n, rest, r, r', i, -, behind⟩ := gadget_behind unfolds number
  obtain ⟨retired, sound, old⟩ := behind.sound
  rw [← behind.step]
  apply Folded.idle_of_ofStream folded (retired_lt unfolds (List.mem_of_getElem? number))
  rw [Unfolded.stream, ← List.map_drop]
  exact behind.emission.avoids sound behind.size old u.gadgets

/-- Corrections leave measured slots alone. -/
theorem correction_retired (unfolds : network.unfolded = .ok u) (hg : g ∈ u.gadgets) {p : Pauli}
    (hp : p ∈ u.corrections) : p.get? g.retired = some .I := by
  obtain ⟨n, width⟩ := exists_width unfolds
  obtain ⟨-, slots, -⟩ := slots_partition unfolds width
  obtain ⟨k, found⟩ := List.getElem?_of_mem hp
  obtain ⟨q, -, lifts⟩ := forall₂_getElem? (corrections_lift unfolds width).flip found
  have nodup : (u.gadgets.map Gadget.retired ++ u.layout.slots).Nodup :=
    slots.nodup_iff.mpr List.nodup_range
  have apart : g.retired ∉ u.layout.slots := fun live =>
    (List.nodup_append.mp nodup).2.2 _ (List.mem_map_of_mem hg) _ live rfl
  rw [Pauli.get?_eq_letter ((retired_lt unfolds hg).trans_eq lifts.wide.symm), lifts.idle _ apart]

/-- A term that is flipped by a measurement belongs to the step of its gadget or a later
one. -/
theorem gadget_of_flip (unfolds : network.unfolded = .ok u) {f : Folded}
    (folded : Folded.ofStream u.stream u.width = .ok f) {k : Nat} {t : Term}
    (found : f.poly.terms[k]? = some t) (flipped : m ∈ t.flips) :
    ∃ g, u.gadgets[m]? = some g ∧ g.step ≤ k := by
  obtain ⟨n, width⟩ := exists_width unfolds
  obtain ⟨-, -, ids, -⟩ := slots_partition unfolds width
  obtain ⟨rotation, listed, flips, -⟩ := Folded.rotation_of_term folded found
  rw [← flips, flips_of_rotation unfolds listed, Gadget.mem_flipping_iff ids] at flipped
  obtain ⟨g, number, hk⟩ := flipped
  obtain ⟨n, rest, r, r', i, -, behind⟩ := gadget_behind unfolds number
  exact ⟨g, number, behind.step_le hk⟩

end Network

/-- **Outcomes are there when they are needed.** From the step of its H gate on, no term acts
on the slot of a measurement, and no correction does. So if a term has to wait for a
measurement, the terms that act on its slot all come before the step of the H gate, and that
step comes no later than the term. -/
theorem feed_forward_is_causal {network : Network} {c : Circuit} (built : network.circuit = .ok c) :
    (∀ m, m < c.corrections.length → ∃ slot origin, network.Measures c.toUnfolded m slot origin ∧
      (∀ k t, c.poly.get? k = some t → origin ≤ k → t.support[slot]? = some false) ∧
      ∀ (m' : Nat) (p : Pauli), c.corrections[m']? = some p → p.get? slot = some .I) ∧
    ∀ k t, c.poly.get? k = some t → ∀ m ∈ t.flips, ∃ slot origin,
      network.Measures c.toUnfolded m slot origin ∧ origin ≤ k ∧
      ∀ j t', c.poly.get? j = some t' → t'.support[slot]? = some true → j < origin := by
  obtain ⟨u, f, unfolds, folded, rfl⟩ := Network.circuit_eq_ok built
  constructor
  · intro m hm
    rw [Unfolded.length_corrections] at hm
    have number := List.getElem?_eq_getElem hm
    refine ⟨_, _, Network.measures_of_gadget unfolds number, ?_, ?_⟩
    · intro k t found le
      exact Network.idle_of_gadget unfolds folded number k t le found
    · intro m' p found
      exact Network.correction_retired unfolds (List.mem_of_getElem? number)
        (List.mem_of_getElem? found)
  · intro k t found m flipped
    obtain ⟨g, number, le⟩ := Network.gadget_of_flip unfolds folded found flipped
    refine ⟨_, _, Network.measures_of_gadget unfolds number, le, ?_⟩
    intro j t' found' acts
    by_contra late
    have idle := Network.idle_of_gadget unfolds folded number j t' (Nat.le_of_not_lt late) found'
    rw [acts] at idle
    cases idle

/-- The first term acts on slot 2, whose measurement the second term waits for. -/
theorem feed_forward_of_second_measurement :
    let network : Network := ⟨[⟨[.h 0], ⟨[.Z, .I]⟩, false⟩, ⟨[.cx 0 1, .h 0], ⟨[.I, .Z]⟩, true⟩,
      ⟨[.cx 1 0], ⟨[.Z, .Z]⟩, false⟩]⟩
    let first : Term := ⟨[false, false, true, false], [0], false⟩
    ∃ c second, network.circuit = .ok c ∧ .meas 2 1 ∈ c.ending ∧ c.poly.get? 0 = some first ∧
      c.poly.get? 1 = some second ∧ 1 ∈ second.flips ∧
      (∃ slot origin, network.Measures c.toUnfolded 1 slot origin ∧
        (∀ k t, c.poly.get? k = some t → origin ≤ k → t.support[slot]? = some false) ∧
        ∀ (m' : Nat) (p : Pauli), c.corrections[m']? = some p → p.get? slot = some .I) ∧
      ∃ slot origin, network.Measures c.toUnfolded 1 slot origin ∧ origin ≤ 1 ∧
        ∀ j t', c.poly.get? j = some t' → t'.support[slot]? = some true → j < origin := by
  intro network first
  obtain ⟨c, second, built, read, acts, found, flipped, enough⟩ : ∃ c second,
      network.circuit = .ok c ∧ .meas 2 1 ∈ c.ending ∧ c.poly.get? 0 = some first ∧
      c.poly.get? 1 = some second ∧ 1 ∈ second.flips ∧ 1 < c.corrections.length :=
    ⟨_, _, rfl, by decide, by decide, rfl, by decide, by decide⟩
  obtain ⟨idle, waits⟩ := feed_forward_is_causal built
  exact ⟨c, second, built, read, acts, found, flipped, idle 1 enough,
    waits 1 second found 1 flipped⟩

end HadamardFree
