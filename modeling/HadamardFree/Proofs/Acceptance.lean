import HadamardFree.Proofs.Equivalence
import HadamardFree.Proofs.Positions

/-!
# Which networks are refused, and why

A network is refused for the first thing that is wrong with it in reading order, and for
nothing else. Once the check has passed, no slot is missing and no lookup fails; what can
still stop the folding of CX gates is an axis with an X or a Y.

* `Gate.Faulty`, `Step.Faulty`, `Network.Faulty`: the first fault of a network;
* `Network.unfolded_eq_error_iff`: unfolding fails with that fault only;
* `Emission.drop`, `Network.stream_split`: the stream at the rotation of a given step;
* `Network.FirstOffDiagonal`, `Network.fold_error`: where folding stops;
* `refusals_are_exact`: all of it for one network.
-/

namespace HadamardFree

/-! ## Faults -/

/-- What is wrong with a gate of a piece on `n` qubits. CZ gates and measurements have no
place there, whatever their qubits. -/
inductive Gate.Faulty (n step : Nat) : Gate → GadgetError → Prop
  | cz (a b : Nat) : Faulty n step (.cz a b) (.unsupportedGate step (.cz a b))
  | meas (k id : Nat) : Faulty n step (.meas k id) (.unsupportedGate step (.meas k id))
  | outside {g : Gate} {q : Nat} (elementary : g.isElementary = true) (acts : q ∈ g.qubits)
      (beyond : n ≤ q) : Faulty n step g (.qubitOutOfRange step g n)

/-- The first thing that is wrong with a step: its axis comes before its gates. -/
inductive Step.Faulty (n step : Nat) (s : Step) : GadgetError → Prop
  | axis (other : s.axis.size ≠ n) : Faulty n step s (.malformedRotation step n s.axis.size)
  | gate {before after : List Gate} {g : Gate} {e : GadgetError} (size : s.axis.size = n)
      (split : s.piece = before ++ g :: after) (fine : ∀ g' ∈ before, g'.Carries n)
      (fault : g.Faulty n step e) : Faulty n step s e

/-- The first thing that is wrong with a network, in reading order. -/
def Network.Faulty (n : Nat) (network : Network) (e : GadgetError) : Prop :=
  ∃ before s after, network.steps = before ++ s :: after ∧ (∀ s' ∈ before, s'.Carries n) ∧
    s.Faulty n before.length e

theorem Gate.fault?_eq_some_iff {n step : Nat} {g : Gate} {e : GadgetError} :
    g.fault? n step = some e ↔ g.Faulty n step e := by
  constructor
  · intro h
    cases kind : g.isElementary with
    | false =>
      simp only [fault?, kind, Bool.not_false, if_true, Option.some.injEq] at h
      subst h
      cases g with
      | h | s | cx => cases kind
      | cz a b => exact .cz a b
      | meas k id => exact .meas k id
    | true =>
      simp only [fault?, kind, Bool.not_true, Bool.false_eq_true, if_false,
        Option.ite_none_right_eq_some, Bool.not_eq_true', Option.some.injEq] at h
      obtain ⟨wide, rfl⟩ := h
      obtain ⟨q, acts, beyond⟩ : ∃ q ∈ g.qubits, n ≤ q := by
        simpa [fits] using wide
      exact .outside kind acts beyond
  · intro h
    cases h with
    | cz | meas => rfl
    | outside elementary acts beyond =>
      have wide : g.fits n = false := by
        simpa [fits] using ⟨_, acts, beyond⟩
      simp [fault?, elementary, wide]

theorem Step.fault?_eq_some_iff {n step : Nat} {s : Step} {e : GadgetError} :
    s.fault? n step = some e ↔ s.Faulty n step e := by
  rw [fault?]
  by_cases size : s.axis.size = n
  · simp only [size, if_true, List.findSome?_eq_some_iff, Gate.fault?_eq_none_iff,
      Gate.fault?_eq_some_iff]
    constructor
    · rintro ⟨before, g, after, split, fault, fine⟩
      exact .gate size split fine fault
    · intro h
      cases h with
      | axis other => exact absurd size other
      | gate _ split fine fault => exact ⟨_, _, _, split, fault, fine⟩
  · simp only [size, if_false, Option.some.injEq]
    constructor
    · rintro rfl
      exact .axis size
    · intro h
      cases h with
      | axis => rfl
      | gate same => exact absurd same size

theorem Network.fault?_eq_some_iff {n : Nat} {network : Network} {e : GadgetError} :
    network.fault? n = some e ↔ network.Faulty n e := by
  have fine : ∀ before : List Step, (∀ x ∈ before.zipIdx, x.1.fault? n x.2 = none) ↔
      ∀ s ∈ before, s.Carries n := by
    intro before
    rw [← @fault?_eq_none_iff n ⟨before⟩, fault?, List.findSome?_eq_none_iff]
  rw [fault?, List.findSome?_eq_some_iff]
  constructor
  · rintro ⟨front, x, back, split, fault, good⟩
    obtain ⟨before, rest, steps, rfl, tail⟩ := List.zipIdx_eq_append_iff.mp split
    cases rest with
    | nil => cases tail
    | cons s after =>
      cases tail
      refine ⟨before, s, after, steps, (fine before).mp good, ?_⟩
      rw [Nat.zero_add] at fault
      exact Step.fault?_eq_some_iff.mp fault
  · rintro ⟨before, s, after, steps, good, fault⟩
    refine ⟨before.zipIdx, (s, before.length), after.zipIdx (before.length + 1), ?_,
      Step.fault?_eq_some_iff.mpr fault, (fine before).mpr good⟩
    rw [steps, List.zipIdx_append, List.zipIdx_cons, Nat.zero_add]

namespace Network

variable {network : Network} {u : Unfolded} {n : Nat}

theorem width?_eq_none_iff : network.width? = none ↔ network.steps = [] := by
  rw [width?, Option.map_eq_none_iff, List.head?_eq_none_iff]

/-- Unfolding fails for want of steps or for the first fault. -/
theorem unfolded_eq_error_iff (width : network.width? = some n) {e : GadgetError} :
    network.unfolded = .error e ↔ network.Faulty n e := by
  rw [← fault?_eq_some_iff]
  cases fault : network.fault? n with
  | some e' => simp [unfolded, width, fault]
  | none =>
    obtain ⟨u, r, unfolds, -⟩ := exists_unfolded width (fault?_eq_none_iff.mp fault)
    simp [unfolds]

/-- The refusals there are. -/
inductive IsFault : GadgetError → Prop
  | emptyNetwork : IsFault .emptyNetwork
  | malformedRotation (step expected found : Nat) : IsFault (.malformedRotation step expected found)
  | qubitOutOfRange (step : Nat) (g : Gate) (width : Nat) : IsFault (.qubitOutOfRange step g width)
  | unsupportedGate (step : Nat) (g : Gate) : IsFault (.unsupportedGate step g)

theorem isFault_of_unfolded {e : GadgetError} (refused : network.unfolded = .error e) :
    IsFault e := by
  cases width : network.width? with
  | none =>
    simp only [unfolded, width, Except.error.injEq] at refused
    exact refused ▸ .emptyNetwork
  | some n =>
    obtain ⟨before, s, after, -, -, fault⟩ := (unfolded_eq_error_iff width).mp refused
    cases fault with
    | axis other => exact .malformedRotation ..
    | gate size split fine fault =>
      cases fault with
      | cz | meas => exact .unsupportedGate ..
      | outside => exact .qubitOutOfRange ..

theorem exists_unfolded_iff (width : network.width? = some n) :
    (∃ u, network.unfolded = .ok u) ↔ ∀ s ∈ network.steps, s.Carries n := by
  constructor
  · rintro ⟨u, unfolds⟩
    exact (network.unfolded_emission unfolds width).1
  · intro carries
    obtain ⟨u, r, unfolds, -⟩ := exists_unfolded width carries
    exact ⟨u, unfolds⟩

theorem unfolded_eq_emptyNetwork_iff :
    network.unfolded = .error .emptyNetwork ↔ network.steps = [] := by
  rw [← width?_eq_none_iff]
  cases width : network.width? with
  | none => simp [unfolded, width]
  | some n =>
    rw [unfolded_eq_error_iff width]
    refine ⟨?_, fun h => by cases h⟩
    rintro ⟨before, s, after, -, -, fault⟩
    cases fault with
    | gate size split fine fault => cases fault

end Network

/-! ## The stream at a rotation -/

/-- The pass goes on behind any number of operations, with the qubits where the gates before
have moved them. -/
theorem Emission.drop {n : Nat} {ops : List Op} {r r' : Register} {es : List Emitted}
    (h : Emission n ops r es r') (i : Nat) :
    ∃ m, Emission n (ops.drop i)
      { (Op.gates (ops.take i)).foldl Register.after r with measurements := m } (es.drop i) r' := by
  induction h generalizing i with
  | nil r => exact ⟨r.measurements, by simpa [Op.gates] using Emission.nil r⟩
  | @gate step g ops r r' es carries other rest ih =>
    cases i with
    | zero => exact ⟨r.measurements, .gate carries other rest⟩
    | succ i =>
      have stays : r.after g = r := by
        cases g with
        | h k => cases other
        | s | cx | cz | meas => rfl
      have gates : Op.gates ((Op.gate step g :: ops).take (i + 1)) =
          g :: Op.gates (ops.take i) := rfl
      rw [gates, List.foldl_cons, stays]
      exact ih i
  | @hadamard step q ops r r' es flips correction hq free flipped left rest ih =>
    cases i with
    | zero => exact ⟨r.measurements, .hadamard hq free flipped left rest⟩
    | succ i =>
      obtain ⟨m, later⟩ := ih i
      rw [Register.newOutcome, Register.foldl_after_measurements] at later
      exact ⟨m, later⟩
  | @rotation step axis lifted sign ops r r' es lifts rest ih =>
    cases i with
    | zero => exact ⟨r.measurements, .rotation lifts rest⟩
    | succ i => exact ih i

theorem Op.ofSteps_append (first : Nat) (before after : List Step) :
    ofSteps first (before ++ after) =
      ofSteps first before ++ ofSteps (first + before.length) after := by
  induction before generalizing first with
  | nil => rfl
  | cons s before ih =>
    have shift : first + 1 + before.length = first + (before.length + 1) := by omega
    rw [List.cons_append, ofSteps, ofSteps, ih, List.append_assoc, List.length_cons, shift]

namespace Network

variable {network : Network} {u : Unfolded} {n : Nat}

/-- Where the qubits are at the rotation of step `k`: behind its own piece and all pieces
before. -/
def placementAt (network : Network) (n width k : Nat) : Placement :=
  (((network.steps.take (k + 1)).flatMap Step.piece).foldl Register.after
    (.start n width)).placement

/-- The stream in front of the rotation of a step, and the rotation itself. -/
theorem stream_split (unfolds : network.unfolded = .ok u) (width : network.width? = some n)
    {before after : List Step} {s : Step} (split : network.steps = before ++ s :: after) :
    let ops := Op.ofSteps 0 before ++ s.piece.map (.gate before.length)
    ∃ front rotation back, u.stream = front ++ .rotation rotation :: back ∧
      List.Forall₂ (fun op op' => StreamOp.Folds u.width op' ↔ op.Diagonal) ops front ∧
      (StreamOp.rotations front).length = before.length ∧
      (network.placementAt n u.width before.length).Lifts u.width s.axis rotation.axis := by
  intro ops
  obtain ⟨-, wide, r', -, emission⟩ := network.unfolded_emission unfolds width
  have start : (Register.start n u.width).Sound [] := Register.start_sound (by omega)
  have read : Op.ofSteps 0 network.steps =
      ops ++ .rotation before.length s.axis s.sign :: Op.ofSteps (before.length + 1) after := by
    rw [split, Op.ofSteps_append, Op.ofSteps, Op.ofStep, Nat.zero_add]
    simp [ops]
  have gates : Op.gates ops = (network.steps.take (before.length + 1)).flatMap Step.piece := by
    have taken : network.steps.take (before.length + 1) = before ++ [s] := by
      simp [split, List.take_append]
    rw [taken, Op.gates_append, Op.gates_ofSteps, Op.gates_map]
    simp
  have folds := emission.forall₂_folds start (Register.size_start ..) u.gadgets
  obtain ⟨m, rest⟩ := emission.drop ops.length
  rw [read, List.take_left, List.drop_left, gates] at rest
  obtain ⟨lifted, es, tail, lifts⟩ : ∃ lifted es, u.emitted.drop ops.length =
      .rotation before.length lifted s.sign :: es ∧
      (network.placementAt n u.width before.length).Lifts u.width s.axis lifted := by
    generalize u.emitted.drop ops.length = es at rest
    cases rest with
    | rotation lifts rest =>
      rw [Register.width_foldl_after] at lifts
      exact ⟨_, _, rfl, lifts⟩
  refine ⟨(u.emitted.take ops.length).map (Emitted.toOp u.gadgets),
    ⟨lifted, Gadget.flipping u.gadgets before.length, s.sign⟩, es.map (Emitted.toOp u.gadgets),
    ?_, ?_, ?_, lifts⟩
  · have whole : u.emitted = u.emitted.take ops.length ++
        .rotation before.length lifted s.sign :: es := by rw [← tail, List.take_append_drop]
    exact (congrArg (List.map (Emitted.toOp u.gadgets)) whole).trans List.map_append
  · have taken := List.forall₂_take ops.length folds
    rw [read, List.take_left] at taken
    exact List.forall₂_map_right_iff.mpr taken
  · obtain ⟨r₁, reached⟩ := emission.reached start (Register.size_start ..) u.gadgets ops.length
    have gatesOnly : (s.piece.map (Op.gate before.length)).filterMap Op.rotation? = [] := by
      simp [List.filterMap_eq_nil_iff, Op.rotation?]
    have count := reached.rotations
    rw [read, List.take_left, List.filterMap_append, Op.rotations_ofSteps, gatesOnly,
      List.append_nil, List.length_range'] at count
    exact count

/-- Gadgets flip rotations that are there. -/
theorem flips_lt_size (unfolds : network.unfolded = .ok u) (width : network.width? = some n)
    {g : Gadget} (hg : g ∈ u.gadgets) {k : Nat} (hk : k ∈ g.flips) : k < network.size := by
  obtain ⟨carries, -, r, -, emission⟩ := network.unfolded_emission unfolds width
  have sites := Hadamard.ofOps_ofSteps network 0
  rw [List.drop_zero] at sites
  have replaces := emission.replaces
  rw [sites, List.forall₂_map_left_iff] at replaces
  obtain ⟨m, number⟩ := List.getElem?_of_mem hg
  obtain ⟨site, listed, replaced⟩ := forall₂_getElem? replaces.flip number
  have member : site ∈ HadamardSite.ofSteps 0 network.steps := List.mem_of_getElem? listed
  rcases (replaced.flips k).mp hk with own | later
  · obtain ⟨j, s, -, step, found, -⟩ := HadamardSite.mem_ofSteps member
    have inside := (List.getElem?_eq_some_iff.mp found).1
    rw [own, step, Nat.zero_add]
    exact inside
  · have tailCarries := HadamardSite.tail_carries carries member
    obtain ⟨-, clash⟩ := (HadamardSite.mem_flips_rest carries tailCarries).mp later
    exact lt_size_of_clashesAt clash

end Network

/-! ## Where folding stops -/

/-- An operator that is not diagonal is refused for its first X or Y. -/
theorem Pauli.support_eq_error {p : Pauli} {width : Nat} (size : p.size = width)
    (off : p.isDiagonal = false) (rotation : Nat) :
    ∃ slot a, p.support rotation width = .error (.notDiagonal rotation slot a) ∧
      p.get? slot = some a ∧ a.isDiagonal = false ∧
      ∀ j b, j < slot → p.get? j = some b → b.isDiagonal = true := by
  rw [support, if_pos size]
  cases found : p.letters.zipIdx.find? fun x => !x.1.isDiagonal with
  | none =>
    have good : p.support rotation width = .ok p.zBits := by
      rw [support, if_pos size, found]
    rw [(support_eq_ok_iff.mp good).2.1] at off
    cases off
  | some x =>
    obtain ⟨bad, slot, inside, entry, first⟩ := List.find?_eq_some_iff_getElem.mp found
    rw [List.getElem_zipIdx, Nat.zero_add] at entry
    subst entry
    refine ⟨slot, _, rfl, ?_, by simpa using bad, ?_⟩
    · exact List.getElem?_eq_getElem _
    · intro j b lt hb
      have diagonal := first j lt
      obtain ⟨_, rfl⟩ := List.getElem?_eq_some_iff.mp hb
      simpa using diagonal

/-- A stream that can be folded up to a rotation which is not diagonal is refused there. -/
theorem Folded.ofStream_eq_error {front : List StreamOp} {rotation : Rotation} {width : Nat}
    (folds : ∀ op ∈ front, op.Folds width) (size : rotation.axis.size = width)
    (off : rotation.axis.isDiagonal = false) (back : List StreamOp) :
    ∃ slot a, ofStream (front ++ .rotation rotation :: back) width =
        .error (.notDiagonal (StreamOp.rotations front).length slot a) ∧
      rotation.axis.get? slot = some a ∧ a.isDiagonal = false ∧
      ∀ j b, j < slot → rotation.axis.get? j = some b → b.isDiagonal = true := by
  have done : front.foldlM absorb ⟨.empty width, []⟩ =
      .ok (front.foldl absorbed ⟨.empty width, []⟩) := ofStream_eq_ok_iff.mpr ⟨folds, rfl⟩
  have count := size_foldl ⟨.empty width, []⟩ front
  have wide := width_foldl ⟨.empty width, []⟩ front
  rw [show (PhasePolynomial.empty width).size = 0 from rfl, Nat.zero_add] at count
  obtain ⟨slot, a, refused, found⟩ :=
    Pauli.support_eq_error (size.trans wide.symm) off (StreamOp.rotations front).length
  refine ⟨slot, a, ?_, found⟩
  rw [ofStream, List.foldlM_append, done]
  simp only [bind, Except.bind, List.foldlM_cons, absorb, count, refused]

/-- Step `k` is the first whose axis has an X or a Y. Of the slots where this axis has one on
the register, `slot` is the lowest, and its letter is `a`. -/
structure Network.FirstOffDiagonal (network : Network) (n : Nat) (u : Unfolded) (k slot : Nat)
    (a : Letter) : Prop where
  before : ∀ j s, j < k → network.get? j = some s → s.axis.isDiagonal = true
  letter : a.isDiagonal = false
  lowest : ∃ rotation, (StreamOp.rotations u.stream)[k]? = some rotation ∧
    rotation.axis.get? slot = some a ∧
    ∀ j b, j < slot → rotation.axis.get? j = some b → b.isDiagonal = true
  /-- The qubit that lives in the slot at this time has the letter in the axis of the step. -/
  qubit : ∃ s q, network.get? k = some s ∧ s.axis.get? q = some a ∧
    (network.placementAt n u.width k).get? q = some slot

theorem Placement.Lifts.qubit_of_letter {m : Placement} {width : Nat} {p q : Pauli}
    (lifts : m.Lifts width p q) {slot : Nat} {a : Letter} (found : q.get? slot = some a)
    (other : a ≠ .I) : ∃ k, p.get? k = some a ∧ m.get? k = some slot := by
  have inside : slot < q.size := (List.getElem?_eq_some_iff.mp found).1
  have letter : q.letter slot = a := by
    rw [Pauli.get?_eq_letter inside] at found
    exact Option.some.inj found
  have live : slot ∈ m.slots := by
    by_contra idle
    exact other (letter.symm.trans (lifts.idle slot idle))
  obtain ⟨k, hk, rfl⟩ := exists_of_mem live
  refine ⟨k, ?_, get?_eq_slot hk⟩
  rw [Pauli.get?_eq_letter (hk.trans_eq lifts.size.symm), ← lifts.live k hk, letter]

/-- If an axis is not diagonal, folding stops at the first one. -/
theorem Network.fold_error {network : Network} {u : Unfolded} {n : Nat}
    (unfolds : network.unfolded = .ok u) (width : network.width? = some n)
    (off : ¬ ∀ s ∈ network.steps, s.axis.isDiagonal = true) :
    ∃ k slot a, network.circuit = .error (.folding (.notDiagonal k slot a)) ∧
      network.FirstOffDiagonal n u k slot a := by
  obtain ⟨s, found⟩ : ∃ s, network.steps.find? (fun s => !s.axis.isDiagonal) = some s := by
    rw [← Option.isSome_iff_exists, List.find?_isSome]
    simpa using off
  obtain ⟨bad, before, after, split, good⟩ := List.find?_eq_some_iff_append.mp found
  obtain ⟨front, rotation, back, stream, folds, count, lifts⟩ := stream_split unfolds width split
  have frontFolds : ∀ op ∈ front, op.Folds u.width := by
    rw [forall_mem_iff_of_forall₂ folds]
    intro op hop
    rcases List.mem_append.mp hop with earlier | own
    · refine Op.forall_ofSteps.mpr (fun k s' hs' => ⟨fun _ _ => trivial, ?_⟩) op earlier
      have diagonal : s'.axis.isDiagonal = true := by
        simpa using good s' (List.mem_of_getElem? hs')
      exact diagonal
    · obtain ⟨g, -, rfl⟩ := List.mem_map.mp own
      trivial
  have axisOff : rotation.axis.isDiagonal = false := by
    rw [← Bool.not_eq_true, lifts.isDiagonal_iff]
    simpa using bad
  obtain ⟨slot, a, refused, here, letter, lowest⟩ :=
    Folded.ofStream_eq_error frontFolds lifts.wide axisOff back
  rw [← stream, count] at refused
  refine ⟨before.length, slot, a, ?_, ?_, letter, ⟨rotation, ?_, here, lowest⟩, ?_⟩
  · rw [circuit, unfolds]
    simp only [bind, Except.bind, Unfolded.fold, refused]
  · intro j s' lt found'
    rw [get?, split, List.getElem?_append_left lt] at found'
    simpa using good s' (List.mem_of_getElem? found')
  · rw [stream, StreamOp.rotations, List.filterMap_append, ← count, StreamOp.rotations,
      List.getElem?_append_right (Nat.le_refl _), Nat.sub_self]
    rfl
  · have other : a ≠ .I := by
      rintro rfl
      cases letter
    obtain ⟨q, own, home⟩ := lifts.qubit_of_letter here other
    refine ⟨s, q, ?_, own, home⟩
    rw [get?, split, List.getElem?_append_right (Nat.le_refl _), Nat.sub_self]
    rfl

/-- **Refusals are exact.** A network without steps is refused as empty, any other for its
first fault in reading order, and no other network is refused: the register never gets full,
no step is missed and no operator fails to pass a gate. Flips name steps of the network, so
all lookups succeed. Folding keeps the refusal. Where there is none, it succeeds exactly if
all axes have only I and Z, and else reports the first step with an X or a Y and the lowest
slot that holds one. -/
theorem refusals_are_exact (network : Network) :
    (network.unfolded = .error .emptyNetwork ↔ network.steps = []) ∧
    (∀ n, network.width? = some n →
      (∀ e, network.unfolded = .error e ↔ network.Faulty n e) ∧
      ((∃ u, network.unfolded = .ok u) ↔ ∀ s ∈ network.steps, s.Carries n)) ∧
    (∀ width, network.unfolded ≠ .error (.registerFull width)) ∧
    (∀ step size, network.unfolded ≠ .error (.stepOutOfRange step size)) ∧
    (∀ cause, network.unfolded ≠ .error (.conjugation cause)) ∧
    (∀ cause, network.unfolded ≠ .error (.folding cause)) ∧
    (∀ e, network.unfolded = .error e → network.circuit = .error e) ∧
    ∀ n u, network.width? = some n → network.unfolded = .ok u →
      (∀ g ∈ u.gadgets, ∀ k ∈ g.flips, k < network.size) ∧
      ((∃ c, network.circuit = .ok c) ↔ ∀ s ∈ network.steps, s.axis.isDiagonal = true) ∧
      ((¬ ∀ s ∈ network.steps, s.axis.isDiagonal = true) → ∃ k slot a,
        network.circuit = .error (.folding (.notDiagonal k slot a)) ∧
          network.FirstOffDiagonal n u k slot a) := by
  refine ⟨Network.unfolded_eq_emptyNetwork_iff, fun n width =>
    ⟨fun e => Network.unfolded_eq_error_iff width, Network.exists_unfolded_iff width⟩,
    ?_, ?_, ?_, ?_, ?_, ?_⟩
  · intro width refused
    cases Network.isFault_of_unfolded refused
  · intro step size refused
    cases Network.isFault_of_unfolded refused
  · intro cause refused
    cases Network.isFault_of_unfolded refused
  · intro cause refused
    cases Network.isFault_of_unfolded refused
  · intro e refused
    rw [Network.circuit, refused]
    rfl
  · intro n u width unfolds
    obtain ⟨carries, -⟩ := network.unfolded_emission unfolds width
    refine ⟨fun g hg k hk => Network.flips_lt_size unfolds width hg hk, ?_,
      Network.fold_error unfolds width⟩
    constructor
    · rintro ⟨c, built⟩
      exact Network.isDiagonal_of_circuit built width
    · intro isDiagonal
      exact Network.exists_circuit width carries isDiagonal

/-- In the first network a CZ gate is refused before the H gate behind it, though both lie
outside, and before the short axis of a later step. In the second an H gate takes the first
qubit behind the second one, so of the X and the Y in an axis the Y is found first. -/
theorem refusals_of_cz_and_y :
    let broken : Network := ⟨[⟨[.h 0], ⟨[.Z, .Z]⟩, false⟩,
      ⟨[.s 1, .cz 7 0, .h 9], ⟨[.Z, .I]⟩, false⟩, ⟨[], ⟨[.Z]⟩, false⟩]⟩
    let network : Network := ⟨[⟨[.h 0], ⟨[.Z, .Z]⟩, false⟩, ⟨[.cx 0 1], ⟨[.X, .Y]⟩, true⟩]⟩
    (broken.width? = some 2 ∧ broken.Faulty 2 (.unsupportedGate 1 (.cz 7 0))) ∧
    ∃ u, network.width? = some 2 ∧ network.unfolded = .ok u ∧ (∀ e, ¬ network.Faulty 2 e) ∧
      ∃ k slot a, network.circuit = .error (.folding (.notDiagonal k slot a)) ∧
        network.FirstOffDiagonal 2 u k slot a ∧ (k, slot, a) = (1, 1, .Y) := by
  intro broken network
  constructor
  · obtain ⟨-, faults, -⟩ := refusals_are_exact broken
    exact ⟨rfl, ((faults 2 rfl).1 _).mp (by decide)⟩
  · have width : network.width? = some 2 := rfl
    obtain ⟨u, unfolds⟩ : ∃ u, network.unfolded = .ok u := ⟨_, rfl⟩
    obtain ⟨-, faults, -, -, -, -, -, folding⟩ := refusals_are_exact network
    obtain ⟨-, -, refused⟩ := folding 2 u width unfolds
    obtain ⟨k, slot, a, found, first⟩ := refused (by decide)
    refine ⟨u, width, unfolds, ?_, k, slot, a, found, first, ?_⟩
    · intro e fault
      have failed := ((faults 2 width).1 e).mpr fault
      rw [unfolds] at failed
      cases failed
    · have computed : network.circuit = .error (.folding (.notDiagonal 1 1 .Y)) := by decide
      rw [computed] at found
      cases found
      rfl

end HadamardFree
