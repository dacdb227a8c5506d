import HadamardFree.Gadget.Circuit
import HadamardFree.Proofs.Propagation

/-!
# What is emitted for a network

The pass over a network, said once as a relation: each gate and each rotation of
the network gives one thing on the register, and an H gate gives a gadget whose
flips and correction are those of an X on its qubit.

* `Emission`: the relation between what is read and what is emitted;
* `ofSteps_emission`, `Network.unfolded_emission`: the pass succeeds on every
  network without faults, and what it emits is related to the network;
* `Emission.sound`, `Emission.numbered`: slots and outcome numbers.
-/

namespace HadamardFree

/-- What is emitted for gates and rotations on `n` qubits, from one register to
another. Behind the slot of an H gate comes a fresh one; the gadget flips its own
step and the steps that an X on the qubit does not commute with, and it leaves
that X, carried through all gates behind, in the slots that the qubits end up
in. -/
inductive Emission (n : Nat) : List Op → Register → List Emitted → Register → Prop
  | nil (r : Register) : Emission n [] r [] r
  | gate {step : Nat} {g : Gate} {ops : List Op} {r r' : Register} {es : List Emitted}
      (carries : g.Carries n) (other : g.isH = false) (rest : Emission n ops r es r') :
      Emission n (.gate step g :: ops) r (.gate (g.rename r.placement.slot) :: es) r'
  | hadamard {step q : Nat} {ops : List Op} {r r' : Register} {es : List Emitted}
      {flips : List Nat} {correction : Pauli} (hq : q < n) (free : r.allocated < r.width)
      (flipped : ∀ k, k ∈ flips ↔ k = step ∨ k ∈ Op.flips (.single n q .X) ops)
      (left : ((Op.gates ops).foldl Register.after (r.moved q)).placement.Lifts r.width
        ((Pauli.single n q .X).through (Op.gates ops)) correction)
      (rest : Emission n ops (r.moved q).newOutcome.2 es r') :
      Emission n (.gate step (.h q) :: ops) r
        (.gadget ⟨r.measurements, q, step, r.placement.slot q, r.allocated, flips, correction⟩ ::
          es) r'
  | rotation {step : Nat} {axis lifted : Pauli} {sign : Bool} {ops : List Op} {r r' : Register}
      {es : List Emitted} (lifts : r.placement.Lifts r.width axis lifted)
      (rest : Emission n ops r es r') :
      Emission n (.rotation step axis sign :: ops) r (.rotation step lifted sign :: es) r'

/-- Outcome numbers do not matter for where the qubits go. -/
theorem Register.foldl_after_measurements (r : Register) (m : Nat) (gates : List Gate) :
    gates.foldl Register.after { r with measurements := m } =
      { gates.foldl Register.after r with measurements := m } := by
  induction gates generalizing r with
  | nil => rfl
  | cons g gates ih =>
    have step : Register.after { r with measurements := m } g =
        { r.after g with measurements := m } := by cases g <;> rfl
    rw [List.foldl_cons, List.foldl_cons, step]
    exact ih (r.after g)

theorem Register.placement_foldl_after (r : Register) (m : Nat) (gates : List Gate) :
    (gates.foldl Register.after { r with measurements := m }).placement =
      (gates.foldl Register.after r).placement := by
  rw [foldl_after_measurements]

/-! ## The pass -/

/-- The byproduct of a new gadget, as the relation describes it for an H gate. -/
theorem follow_newOutcome {n step q : Nat} {tail : List Gate} {later : List Step} {r : Register}
    {retired : List Nat} (sound : r.Sound retired) (size : r.size = n) (hq : q < n)
    (free : r.allocated < r.width) (tailCarries : ∀ g ∈ tail, g.Carries n)
    (laterCarries : ∀ s ∈ later, s.Carries n)
    (room : r.allocated + 1 + (tail ++ later.flatMap Step.piece).countP Gate.isH ≤ r.width)
    (axis : Pauli) (sign : Bool) :
    let ops := tail.map (.gate step) ++ .rotation step axis sign :: Op.ofSteps (step + 1) later
    ∃ b, Byproduct.follow step tail later r.allocated (r.moved q).newOutcome.2 = .ok b ∧
      (∀ k, k ∈ b.flips ↔ k = step ∨ k ∈ Op.flips (.single n q .X) ops) ∧
      ((Op.gates ops).foldl Register.after (r.moved q)).placement.Lifts r.width
        ((Pauli.single n q .X).through (Op.gates ops)) b.correction := by
  intro ops
  subst size
  have target : (r.moved q).newOutcome.2.placement.slot q = r.allocated := by
    have moved := Placement.slot_assign r.placement q r.allocated q hq
    rwa [if_pos rfl] at moved
  have size' : (r.moved q).newOutcome.2.size = r.size := by simp
  obtain ⟨correction, followed, lifts⟩ := Byproduct.follow_eq (sound.moved hq free).newOutcome step
    (by simpa using hq) (size'.symm ▸ tailCarries) (size'.symm ▸ laterCarries) room
  rw [target, size'] at followed
  refine ⟨_, followed, ?_, ?_⟩
  · intro k
    rw [Op.flips_map_append (by rwa [Pauli.size_single]), Op.flips]
    split <;> simp
  · have gates : Op.gates ops = tail ++ later.flatMap Step.piece := by
      rw [Op.gates_append, Op.gates_map, ← Op.gates_ofSteps (step + 1)]
      rfl
    rw [size', Register.newOutcome, Register.placement_foldl_after] at lifts
    rw [gates]
    exact lifts

/-- A piece, or what is left of it, emits what the relation says in front of
anything that is emitted for the rest of the network. -/
theorem ofPiece_emission {n step : Nat} {tail : List Gate} {later : List Step} {r : Register}
    {retired : List Nat} (sound : r.Sound retired) (size : r.size = n)
    (tailCarries : ∀ g ∈ tail, g.Carries n) (laterCarries : ∀ s ∈ later, s.Carries n)
    (room : r.allocated + (tail ++ later.flatMap Step.piece).countP Gate.isH ≤ r.width)
    (axis : Pauli) (sign : Bool) :
    ∃ es r₁ retired₁, Emitted.ofPiece step later tail r = .ok (es, r₁) ∧
      r₁.Sound retired₁ ∧ r₁.size = n ∧ r₁.width = r.width ∧
      r₁.allocated = r.allocated + tail.countP Gate.isH ∧
      ∀ es' r', Emission n (.rotation step axis sign :: Op.ofSteps (step + 1) later) r₁ es' r' →
        Emission n (tail.map (.gate step) ++
          .rotation step axis sign :: Op.ofSteps (step + 1) later) r (es ++ es') r' := by
  induction tail generalizing r retired with
  | nil => exact ⟨[], r, retired, rfl, sound, size, rfl, rfl, fun _ _ h => h⟩
  | cons g tail ih =>
    have first : g.Carries n := tailCarries g (List.mem_cons_self ..)
    have rest : ∀ g' ∈ tail, g'.Carries n := fun g' hg' => tailCarries g' (List.mem_cons_of_mem _ hg')
    rw [List.cons_append, List.countP_cons] at room
    cases hg : g.isH with
    | false =>
      rw [hg] at room
      obtain ⟨es, r₁, retired₁, emits, sound₁, size₁, wide₁, allocated₁, continues⟩ :=
        ih sound size rest (by simpa using room)
      refine ⟨.gate (g.rename r.placement.slot) :: es, r₁, retired₁, ?_, sound₁, size₁, wide₁, ?_, ?_⟩
      · rw [Emitted.ofPiece, Register.placeGate_of_not_isH (size ▸ first.2) hg]
        simp only [bind, Except.bind, emits, pure, Except.pure]
      · simp [allocated₁, hg]
      · intro es' r' h
        exact .gate first hg (continues es' r' h)
    | true =>
      obtain ⟨q, rfl⟩ := Gate.eq_h_of_isH hg
      have hq : q < n := by simpa [Gate.fits, Gate.qubits] using first.2
      simp only [Gate.isH, if_true] at room
      have free : r.allocated < r.width := by omega
      have sound' := (sound.moved (size ▸ hq) free).newOutcome
      have room' : r.allocated + 1 + (tail ++ later.flatMap Step.piece).countP Gate.isH ≤ r.width := by
        omega
      obtain ⟨b, followed, flipped, left⟩ :=
        follow_newOutcome sound size hq free rest laterCarries room' axis sign
      obtain ⟨es, r₁, retired₁, emits, sound₁, size₁, wide₁, allocated₁, continues⟩ :=
        ih sound' (by simpa using size) rest room'
      refine ⟨.gadget ⟨r.measurements, q, step, r.placement.slot q, r.allocated, b.flips,
        b.correction⟩ :: es, r₁, retired₁, ?_, sound₁, size₁, wide₁, ?_, ?_⟩
      · rw [Emitted.ofPiece, Register.placeGate_h (size ▸ hq) free]
        simp only [bind, Except.bind, pure, Except.pure]
        rw [followed]
        simp only [emits]
        rfl
      · have moved : (r.moved q).newOutcome.2.allocated = r.allocated + 1 := rfl
        simp only [allocated₁, List.countP_cons, Gate.isH, if_true]
        omega
      · intro es' r' h
        exact .hadamard hq free flipped left (continues es' r' h)

theorem ofSteps_emission {n : Nat} (step : Nat) {steps : List Step} {r : Register} {retired : List Nat}
    (sound : r.Sound retired) (size : r.size = n) (carries : ∀ s ∈ steps, s.Carries n)
    (room : r.allocated + (steps.flatMap Step.piece).countP Gate.isH ≤ r.width) :
    ∃ es r', Emitted.ofSteps step steps r = .ok (es, r') ∧
      Emission n (Op.ofSteps step steps) r es r' := by
  induction steps generalizing r retired step with
  | nil => exact ⟨[], r, rfl, .nil r⟩
  | cons s later ih =>
    have first : s.Carries n := carries s (List.mem_cons_self ..)
    have rest : ∀ s' ∈ later, s'.Carries n := fun s' hs' => carries s' (List.mem_cons_of_mem _ hs')
    rw [List.flatMap_cons] at room
    obtain ⟨es, r₁, retired₁, emits, sound₁, size₁, wide₁, allocated₁, continues⟩ :=
      ofPiece_emission sound size first.piece rest room s.axis s.sign
    obtain ⟨axis, placed, lifts⟩ := sound₁.placeAxis (first.axis.trans size₁.symm) step
    rw [List.countP_append] at room
    obtain ⟨es', r', emits', emission⟩ := ih (step + 1) sound₁ size₁ rest (by omega)
    refine ⟨es ++ .rotation step axis s.sign :: es', r', ?_, ?_⟩
    · rw [Emitted.ofSteps, emits]
      simp only [bind, Except.bind, placed, emits', pure, Except.pure]
    · rw [Op.ofSteps, Op.ofStep, List.append_assoc]
      exact continues _ _ (.rotation lifts emission)

/-! ## Networks without faults -/

theorem Gate.fault?_eq_none_iff {n step : Nat} {g : Gate} :
    g.fault? n step = none ↔ g.Carries n := by
  unfold fault? Carries
  cases g.isElementary <;> cases g.fits n <;> simp

theorem Step.fault?_eq_none_iff {n step : Nat} {s : Step} :
    s.fault? n step = none ↔ s.Carries n := by
  unfold fault?
  by_cases size : s.axis.size = n
  · simp only [size, if_true, List.findSome?_eq_none_iff, Gate.fault?_eq_none_iff]
    exact ⟨fun h => ⟨size, h⟩, fun h => h.piece⟩
  · simp only [size, if_false, reduceCtorEq, false_iff]
    exact fun h => size h.axis

theorem Network.fault?_eq_none_iff {n : Nat} {network : Network} :
    network.fault? n = none ↔ ∀ s ∈ network.steps, s.Carries n := by
  simp only [fault?, List.findSome?_eq_none_iff, Prod.forall, Step.fault?_eq_none_iff]
  constructor
  · intro h s hs
    obtain ⟨k, hk⟩ := List.getElem?_of_mem hs
    exact h s k (List.mem_zipIdx_iff_getElem?.mpr hk)
  · intro h s k hk
    exact h s (List.mem_of_getElem? (List.mem_zipIdx_iff_getElem?.mp hk))

/-- Every network without faults is unfolded, and what is emitted for it starts
from the qubits at home. -/
theorem Network.exists_unfolded {n : Nat} {network : Network} (width : network.width? = some n)
    (carries : ∀ s ∈ network.steps, s.Carries n) :
    ∃ u r, network.unfolded = .ok u ∧ u.width = n + network.hCount ∧ u.layout = r.placement ∧
      Emission n (Op.ofSteps 0 network.steps) (.start n u.width) u.emitted r := by
  obtain ⟨es, r, emits, emission⟩ := ofSteps_emission 0
    (Register.start_sound (Nat.le_add_right n network.hCount)) (Register.size_start ..) carries
    (Nat.le_refl _)
  refine ⟨⟨n + network.hCount, es, r.placement⟩, r, ?_, rfl, rfl, emission⟩
  simp only [unfolded, width, fault?_eq_none_iff.mpr carries, bind, Except.bind, emits, pure,
    Except.pure]

theorem Network.unfolded_emission {n : Nat} {network : Network} {u : Unfolded}
    (h : network.unfolded = .ok u) (width : network.width? = some n) :
    (∀ s ∈ network.steps, s.Carries n) ∧ u.width = n + network.hCount ∧
      ∃ r, u.layout = r.placement ∧
        Emission n (Op.ofSteps 0 network.steps) (.start n u.width) u.emitted r := by
  have carries : ∀ s ∈ network.steps, s.Carries n := by
    rw [← fault?_eq_none_iff]
    cases fault : network.fault? n with
    | none => rfl
    | some e => simp [unfolded, width, fault] at h
  obtain ⟨u', r, unfolds, wide, layout, emission⟩ := exists_unfolded width carries
  rw [h] at unfolds
  cases unfolds
  exact ⟨carries, wide, r, layout, emission⟩

/-! ## Slots and numbers -/

def Emitted.gadgets (es : List Emitted) : List Gadget :=
  es.filterMap Emitted.gadget?

namespace Emission

variable {n : Nat} {ops : List Op} {r r' : Register} {es : List Emitted}

/-- The register of a pass keeps its size and width; its slots stay sound, and
the gadgets retire theirs in order. -/
theorem sound (h : Emission n ops r es r') {retired : List Nat} (sound : r.Sound retired)
    (size : r.size = n) :
    r'.Sound (retired ++ (Emitted.gadgets es).map Gadget.retired) ∧ r'.size = n ∧
      r'.width = r.width := by
  induction h generalizing retired with
  | nil r => exact ⟨by simpa [Emitted.gadgets] using sound, size, rfl⟩
  | gate carries other rest ih => exact ih sound size
  | @hadamard step q ops r r' es flips correction hq free flipped left rest ih =>
    have moved := (sound.moved (size ▸ hq) free).newOutcome
    obtain ⟨sound', size', wide'⟩ := ih moved (by simpa using size)
    refine ⟨?_, size', wide'⟩
    simpa [Emitted.gadgets, Emitted.gadget?] using sound'
  | rotation lifts rest ih => exact ih sound size

/-- Gadgets are numbered in order, and so are their fresh slots. -/
theorem numbered (h : Emission n ops r es r') :
    (Emitted.gadgets es).map Gadget.id =
        List.range' r.measurements ((Op.gates ops).countP Gate.isH) ∧
      (Emitted.gadgets es).map Gadget.fresh =
        List.range' r.allocated ((Op.gates ops).countP Gate.isH) := by
  induction h with
  | nil r => exact ⟨rfl, rfl⟩
  | @gate step g ops r r' es carries other rest ih =>
    have count : (Op.gates (.gate step g :: ops)).countP Gate.isH =
        (Op.gates ops).countP Gate.isH := List.countP_cons_of_neg (by simp [other])
    rw [count]
    exact ih
  | @hadamard step q ops r r' es flips correction hq free flipped left rest ih =>
    have count : (Op.gates (.gate step (.h q) :: ops)).countP Gate.isH =
        (Op.gates ops).countP Gate.isH + 1 := List.countP_cons_of_pos rfl
    rw [count, List.range'_succ, List.range'_succ]
    exact ⟨congrArg _ ih.1, congrArg _ ih.2⟩
  | rotation lifts rest ih => exact ih

theorem placement_eq (h : Emission n ops r es r') :
    r'.placement = ((Op.gates ops).foldl Register.after r).placement := by
  induction h with
  | nil r => rfl
  | @gate step g ops r r' es carries other rest ih =>
    have same : r.after g = r := by
      cases g with
      | h k => cases other
      | s | cx | cz | meas => rfl
    change r'.placement = ((Op.gates ops).foldl Register.after (r.after g)).placement
    rw [same, ih]
  | @hadamard step q ops r r' es flips correction hq free flipped left rest ih =>
    rw [ih, Register.newOutcome, Register.placement_foldl_after]
    rfl
  | rotation lifts rest ih => exact ih

end Emission

end HadamardFree
