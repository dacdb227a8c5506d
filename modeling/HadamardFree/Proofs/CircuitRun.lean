import HadamardFree.Proofs.Readout

/-!
# The run of a circuit

A circuit, run from its preparation to its corrections, does what its network does
under the given outcomes, and then undoes what they leave:

* `State.prepared`: the register before the first gate of the stream;
* `Emission.folds_iff`: which networks give a circuit;
* `Emission.negated`: how each term turns;
* `Network.runCircuit_ofWave`: the run.
-/

namespace HadamardFree

open Function (update)

/-! ## Preparation -/

namespace Wave

theorem hadamard_keepAll {k : Nat} {found : List (Nat × Bool)} (apart : ∀ x ∈ found, x.1 ≠ k)
    (ψ : Wave) : hadamard k (keepAll found ψ) = keepAll found (hadamard k ψ) := by
  have fixed : ∀ (u : Nat → Bool) b, agrees found (update u k b) = agrees found u := by
    intro u b
    rw [Bool.eq_iff_iff]
    simp only [agrees, List.all_eq_true]
    apply forall₂_congr
    intro x hx
    rw [Function.update_of_ne (apart x hx)]
  funext u
  simp only [hadamard, keepAll, diagonal, fixed]
  ring

/-- H gates on qubits in the state zero, on which the wave does not depend. -/
theorem gates_preparations {ks : List Nat} (distinct : ks.Nodup) {ψ : Wave}
    (idle : ∀ k ∈ ks, ∀ v b, ψ (update v k b) = ψ v) :
    gates (ks.map Gate.h) (keepAll (ks.map fun k => (k, false)) ψ) =
      (Amplitude.sqrtHalf : ℂ) ^ ks.length • ψ := by
  induction ks with
  | nil =>
    funext v
    simp [gates, keepAll, diagonal, agrees]
  | cons k ks ih =>
    rw [List.nodup_cons] at distinct
    rw [List.forall_mem_cons] at idle
    have first : hadamard k (keep k false ψ) = (Amplitude.sqrtHalf : ℂ) • ψ := by
      funext v
      simp [hadamard, keep, diagonal, idle.1, mul_comm]
    have apart : ∀ x ∈ ks.map fun k => (k, false), x.1 ≠ k := by
      intro x hx same
      obtain ⟨j, hj, rfl⟩ := List.mem_map.mp hx
      exact distinct.1 (same ▸ hj)
    calc gates ((k :: ks).map Gate.h) (keepAll ((k :: ks).map fun k => (k, false)) ψ)
        = gates (ks.map Gate.h) (hadamard k (keepAll ((k, false) :: ks.map fun k => (k, false)) ψ)) :=
          rfl
      _ = gates (ks.map Gate.h) (keepAll (ks.map fun k => (k, false))
            ((Amplitude.sqrtHalf : ℂ) • ψ)) := by
          rw [keepAll_cons, hadamard_keepAll apart, first]
      _ = _ := by
          rw [keepAll, diagonal_smul, gates_smul, ← keepAll, ih distinct.2 idle.2, smul_smul,
            List.length_cons, pow_succ']

end Wave

namespace State

theorem widen?_ofWave {n width : Nat} (le : n ≤ width) (ψ : Wave) :
    (ofWave n ψ).widen? width = some (ofWave width
      (ψ.keepAll ((List.range' n (width - n)).map fun k => (k, false)))) := by
  have stored : (ofWave n ψ).qubits ≤ width ∧ Amplitude.storable ℂ width = true := ⟨le, rfl⟩
  rw [widen?, if_pos stored]
  congr 1
  refine eq_ofWave (n := width) rfl ?_
  intro i hi
  have zero_iff : Wave.agrees ((List.range' n (width - n)).map fun k => (k, false)) i.testBit = true ↔
      i < 1 <<< n := by
    simp only [Wave.agrees, List.all_eq_true, List.mem_map, List.mem_range'_1, lt_shift_iff]
    constructor
    · intro zeros k hk
      by_cases inside : k < width
      · simpa using zeros (k, false) ⟨k, ⟨hk, by omega⟩, rfl⟩
      · exact lt_shift_iff.mp hi k (by omega)
    · rintro zeros x ⟨k, ⟨hk, -⟩, rfl⟩
      simpa using zeros k hk
  rw [amp_ofFn, if_pos hi]
  by_cases small : i < 1 <<< n
  · rw [amp_ofWave ψ small]
    simp [Wave.keepAll, Wave.diagonal, zero_iff.mpr small]
  · rw [amp_of_le (Nat.le_of_not_lt small)]
    simp [Wave.keepAll, Wave.diagonal, mt zero_iff.mp small]

/-- Terms are run one after the other, each by its own angle. -/
theorem runTerms_ofWave {width first : Nat} {ts : List Term} {angles : List ℝ}
    {outcomes : List Bool} {angle : Nat → ℝ} (enough : angles.length = ts.length)
    (turns : ∀ k t, ts[k]? = some t → ∃ negated, t.negated? outcomes = some negated ∧
      angle (first + k) = signed negated (angles.getD k 0)) (φ : Wave) :
    (ofWave width φ).runTerms outcomes (ts.zip angles) =
      .ok (ofWave width (φ.terms width angle first ts)) := by
  induction ts generalizing first angles φ with
  | nil => rfl
  | cons t ts ih =>
    obtain ⟨a, angles, rfl⟩ := List.exists_cons_of_length_eq_add_one enough
    obtain ⟨negated, known, own⟩ := turns 0 t rfl
    have rest : ∀ k t', ts[k]? = some t' → ∃ negated, t'.negated? outcomes = some negated ∧
        angle (first + 1 + k) = signed negated (angles.getD k 0) := by
      intro k t' ht'
      obtain ⟨negated', known', other⟩ := turns (k + 1) t' ht'
      refine ⟨negated', known', ?_⟩
      rw [Nat.add_assoc, Nat.add_comm 1 k, other]
      rfl
    rw [Nat.add_zero, List.getD_cons_zero] at own
    rw [List.zip_cons_cons, runTerms, Wave.terms, own]
    simp only [known, rotate_ofWave]
    exact ih (Nat.succ.inj enough) rest _

end State

/-! ## Circuits -/

def Op.Diagonal : Op → Prop
  | .gate _ _ => True
  | .rotation _ axis _ => axis.isDiagonal = true

theorem Placement.Lifts.isDiagonal_iff {m : Placement} {width : Nat} {p q : Pauli}
    (lifts : m.Lifts width p q) : q.isDiagonal = true ↔ p.isDiagonal = true := by
  rw [Pauli.isDiagonal_iff, Pauli.isDiagonal_iff]
  constructor
  · intro h k
    by_cases hk : k < m.size
    · rw [← lifts.live k hk, h]
    · rw [Pauli.letter_of_size_le (lifts.size.symm ▸ Nat.le_of_not_lt hk)]
      rfl
  · intro h j
    by_cases hj : j ∈ m.slots
    · obtain ⟨k, hk, rfl⟩ := exists_of_mem hj
      rw [lifts.live k hk, h]
    · rw [lifts.idle j hj]
      rfl

def Op.turn? : Op → Option (Nat × Bool)
  | .gate _ _ => none
  | .rotation step _ sign => some (step, sign)

theorem forall_mem_iff_of_forall₂ {α β : Type} {P : α → Prop} {Q : β → Prop} {as : List α}
    {bs : List β} (h : List.Forall₂ (fun a b => Q b ↔ P a) as bs) :
    (∀ b ∈ bs, Q b) ↔ ∀ a ∈ as, P a := by
  induction h with
  | nil => simp
  | cons first rest ih => rw [List.forall_mem_cons, List.forall_mem_cons, first, ih]

theorem Op.turns_ofSteps (step : Nat) (steps : List Step) :
    (ofSteps step steps).filterMap turn? = (steps.zipIdx step).map fun x => (x.2, x.1.sign) := by
  induction steps generalizing step with
  | nil => rfl
  | cons s steps ih =>
    have gates : (s.piece.map (gate step)).filterMap turn? = [] := by
      simp [List.filterMap_eq_nil_iff, turn?]
    rw [ofSteps, ofStep, List.filterMap_append, List.filterMap_append, gates, ih,
      List.zipIdx_cons]
    rfl

namespace Emission

variable {n : Nat} {ops : List Op} {r r' : Register} {es : List Emitted}

/-- The gates of the stream are those of the middle of a circuit. -/
theorem middle (emission : Emission n ops r es r') {retired : List Nat} (sound : r.Sound retired)
    (size : r.size = n) (distinct : ∀ g ∈ Op.gates ops, ∀ k, g ≠ .cx k k) (gadgets : List Gadget) :
    ∀ g, .gate g ∈ es.map (Emitted.toOp gadgets) → g.Middle := by
  induction emission generalizing retired with
  | nil r => exact fun g hg => by cases hg
  | @gate step g ops r r' es carries other rest ih =>
    have gates : Op.gates (.gate step g :: ops) = g :: Op.gates ops := rfl
    rw [gates, List.forall_mem_cons] at distinct
    subst size
    have fits : g.fits r.placement.size = true := carries.2
    have own : g.Middle := by
      refine ⟨other, distinct.1, ?_⟩
      rintro k id rfl
      cases carries.1
    intro g' hg'
    rcases List.mem_cons.mp hg' with first | later
    · cases first
      exact Wave.rename_middle sound.slots_nodup fits own
    · exact ih sound rfl distinct.2 g' later
  | @hadamard step q ops r r' es flips correction hq free flipped left rest ih =>
    have gates : Op.gates (.gate step (.h q) :: ops) = .h q :: Op.gates ops := rfl
    rw [gates, List.forall_mem_cons] at distinct
    have moved := (sound.moved (size ▸ hq) free).newOutcome
    intro g' hg'
    rcases List.mem_cons.mp hg' with first | later
    · cases first
      exact ⟨rfl, by simp, by simp⟩
    · exact ih moved (by simpa using size) distinct.2 g' later
  | rotation lifts rest ih =>
    intro g' hg'
    rcases List.mem_cons.mp hg' with first | later
    · cases first
    · exact ih sound size distinct g' later

/-- What is emitted for an operation can be folded, unless the operation is a rotation whose
axis is not diagonal. -/
theorem forall₂_folds (emission : Emission n ops r es r') {retired : List Nat}
    (sound : r.Sound retired) (size : r.size = n) (gadgets : List Gadget) :
    List.Forall₂ (fun op e => (Emitted.toOp gadgets e).Folds r.width ↔ op.Diagonal) ops es := by
  induction emission generalizing retired with
  | nil r => exact .nil
  | @gate step g ops r r' es carries other rest ih =>
    subst size
    have fits : (g.rename r.placement.slot).fits r.width = true := by
      rw [Gate.fits_iff, Gate.qubits_rename]
      intro j hj
      obtain ⟨k, hk, rfl⟩ := List.mem_map.mp hj
      have inside : k < r.placement.size := Gate.fits_iff.mp carries.2 k hk
      exact sound.slot_lt (Placement.slot_mem inside)
    exact .cons (iff_of_true fits trivial) (ih sound rfl)
  | @hadamard step q ops r r' es flips correction hq free flipped left rest ih =>
    subst size
    have moved := (sound.moved hq free).newOutcome
    have inside : q < r.placement.size := hq
    have fits : (Gate.cz (r.placement.slot q) r.allocated).fits r.width = true := by
      simp [Gate.fits, Gate.qubits, free, sound.slot_lt (Placement.slot_mem inside)]
    exact .cons (iff_of_true fits trivial) (ih moved (by simp))
  | rotation lifts rest ih =>
    refine .cons ?_ (ih sound size)
    exact ⟨fun h => lifts.isDiagonal_iff.mp h.2, fun h => ⟨lifts.wide, lifts.isDiagonal_iff.mpr h⟩⟩

/-- The stream can be folded exactly if all axes are diagonal. -/
theorem folds_iff (emission : Emission n ops r es r') {retired : List Nat}
    (sound : r.Sound retired) (size : r.size = n) (gadgets : List Gadget) :
    (∀ op ∈ es.map (Emitted.toOp gadgets), op.Folds r.width) ↔ ∀ op ∈ ops, op.Diagonal := by
  rw [List.forall_mem_map]
  exact forall_mem_iff_of_forall₂ (emission.forall₂_folds sound size gadgets)

/-- How each rotation of the stream turns. -/
theorem negated (emission : Emission n ops r es r') (gadgets : List Gadget) :
    (StreamOp.rotations (es.map (Emitted.toOp gadgets))).map Rotation.negated? =
      (ops.filterMap Op.turn?).map fun x outcomes =>
        flippedSign? x.2 outcomes (Gadget.flipping gadgets x.1) := by
  induction emission with
  | nil r => rfl
  | gate carries other rest ih => exact ih
  | hadamard hq free flipped left rest ih => exact ih
  | rotation lifts rest ih => exact congrArg _ ih

end Emission

/-! ## Which way the rotations turn -/

theorem flippedSign?_eq {sign : Bool} {outcomes : List Bool} {flips : List Nat}
    (known : ∀ id ∈ flips, id < outcomes.length) :
    flippedSign? sign outcomes flips =
      some (sign ^^ odd flips fun id => outcomes.getD id false) := by
  induction flips generalizing sign with
  | nil => simp [flippedSign?]
  | cons id flips ih =>
    rw [List.forall_mem_cons] at known
    have found : outcomes[id]? = some (outcomes.getD id false) := by
      simp [List.getD_eq_getElem?_getD, known.1]
    rw [flippedSign?, found, odd_cons, ← Bool.xor_assoc]
    exact ih known.2

/-- Whether the outcomes turn the rotation of step `k` the other way. -/
def Gadget.turns (gadgets : List (Gadget × Bool)) (k : Nat) : Bool :=
  odd gadgets fun x => x.2 && x.1.flips.contains k

theorem Gadget.odd_flipping {gadgets : List Gadget} {outcomes bs : List Bool}
    (known : gadgets.map (fun g => outcomes[g.id]?) = bs.map some) (k : Nat) :
    odd (flipping gadgets k) (fun id => outcomes.getD id false) = turns (gadgets.zip bs) k := by
  induction gadgets generalizing bs with
  | nil => rfl
  | cons g gadgets ih =>
    cases bs with
    | nil => cases known
    | cons b bs =>
      rw [List.map_cons, List.map_cons, List.cons.injEq] at known
      have own : outcomes.getD g.id false = b := by
        rw [List.getD_eq_getElem?_getD, known.1, Option.getD_some]
      rw [turns, List.zip_cons_cons, odd_cons, ← turns, ← ih known.2, flipping, List.filter_cons]
      by_cases met : g.flips.contains k = true
      · rw [if_pos met, List.map_cons, odd_cons, own, met, Bool.and_true, flipping]
      · rw [if_neg met, Bool.eq_false_iff.mpr met, Bool.and_false, Bool.false_xor, flipping]

theorem known_of_numbered {gadgets : List Gadget} {outcomes : List Bool}
    (numbered : gadgets.map Gadget.id = List.range' 0 outcomes.length) :
    gadgets.map (fun g => outcomes[g.id]?) = outcomes.map some := by
  have ids : gadgets.map (fun g => outcomes[g.id]?) =
      (gadgets.map Gadget.id).map fun id => outcomes[id]? := by
    rw [List.map_map]
    rfl
  rw [ids, numbered]
  apply List.ext_getElem
  · simp
  · intro k hk hk'
    have inside : k < outcomes.length := by simpa using hk'
    simp [inside]

/-! ## Logical runs -/

namespace Op

theorem local_branch {n : Nat} {ops : List Op} (fits : ∀ g ∈ gates ops, g.fits n = true)
    (angle : Nat → ℝ) (outcomes : List Bool) {ψ : Wave} (h : ψ.Local n) :
    (branch n angle ops outcomes ψ).Local n := by
  induction ops generalizing outcomes ψ with
  | nil => exact h
  | cons op ops ih =>
    cases op with
    | gate step g =>
      have listed : gates (.gate step g :: ops) = g :: gates ops := rfl
      rw [listed, List.forall_mem_cons] at fits
      cases g with
      | h q =>
        have hq : q < n := by simpa [Gate.fits, Gate.qubits] using fits.1
        exact ih fits.2 _ ((h.hadamard hq).flipIf hq _)
      | s | cx | cz | meas => exact ih fits.2 _ (h.gate fits.1)
    | rotation k axis sign => exact ih fits _ (h.rotate _ _)

theorem weight_branch {n : Nat} {ops : List Op} (fits : ∀ g ∈ gates ops, g.fits n = true)
    (angle : Nat → ℝ) (outcomes : List Bool) (ψ : Wave) :
    (branch n angle ops outcomes ψ).weight n = ψ.weight n := by
  induction ops generalizing outcomes ψ with
  | nil => rfl
  | cons op ops ih =>
    cases op with
    | gate step g =>
      have listed : gates (.gate step g :: ops) = g :: gates ops := rfl
      rw [listed, List.forall_mem_cons] at fits
      cases g with
      | h q =>
        have hq : q < n := by simpa [Gate.fits, Gate.qubits] using fits.1
        rw [branch, ih fits.2, Wave.weight_flipIf hq, Wave.weight_hadamard hq]
      | s | cx | cz | meas => rw [branch_gate rfl, ih fits.2, Wave.weight_gate fits.1]
    | rotation k axis sign => rw [branch, ih fits, Wave.weight_rotate]

end Op

/-! ## The slots of a circuit -/

namespace Network

variable {network : Network} {u : Unfolded} {n : Nat}

theorem gates_ops (network : Network) :
    Op.gates (Op.ofSteps 0 network.steps) = network.steps.flatMap Step.piece :=
  Op.gates_ofSteps 0 network.steps

theorem gates_distinct (distinct : ∀ s ∈ network.steps, ∀ g ∈ s.piece, ∀ k, g ≠ .cx k k) :
    ∀ g ∈ Op.gates (Op.ofSteps 0 network.steps), ∀ k, g ≠ .cx k k := by
  rw [gates_ops]
  intro g hg
  obtain ⟨s, hs, inside⟩ := List.mem_flatMap.mp hg
  exact distinct s hs g inside

theorem gates_carry (unfolds : network.unfolded = .ok u) (width : network.width? = some n) :
    ∀ g ∈ Op.gates (Op.ofSteps 0 network.steps), g.Carries n := by
  obtain ⟨carries, -⟩ := network.unfolded_emission unfolds width
  rw [gates_ops]
  intro g hg
  obtain ⟨s, hs, inside⟩ := List.mem_flatMap.mp hg
  exact (carries s hs).piece g inside

theorem gates_fit (unfolds : network.unfolded = .ok u) (width : network.width? = some n) :
    ∀ g ∈ Op.gates (Op.ofSteps 0 network.steps), g.fits n = true :=
  fun g hg => (gates_carry unfolds width g hg).2

theorem length_gadgets (unfolds : network.unfolded = .ok u) (width : network.width? = some n) :
    u.gadgets.length = network.hCount := by
  obtain ⟨-, -, r, -, emission⟩ := network.unfolded_emission unfolds width
  have ids := congrArg List.length emission.numbered.1
  rw [gates_ops, List.length_map, List.length_range'] at ids
  exact ids

/-- At the end the slots are those of the qubits and those that are measured. -/
theorem slots_partition (unfolds : network.unfolded = .ok u) (width : network.width? = some n) :
    u.layout.size = n ∧
      (u.gadgets.map Gadget.retired ++ u.layout.slots).Perm (List.range u.width) ∧
      u.gadgets.map Gadget.id = List.range' 0 network.hCount ∧
      u.gadgets.map Gadget.fresh = List.range' n network.hCount := by
  obtain ⟨-, wide, r, layout, emission⟩ := network.unfolded_emission unfolds width
  have start : (Register.start n u.width).Sound [] := Register.start_sound (by omega)
  obtain ⟨sound, size, -⟩ := emission.sound start (Register.size_start ..)
  have numbered := emission.numbered
  rw [gates_ops] at numbered
  have partition := sound.partition
  rw [List.nil_append, ← layout] at partition
  have layoutSize : u.layout.size = n := layout ▸ size
  have allocated : r.allocated = u.width := by
    have lengths := partition.length_eq
    rw [List.length_append, List.length_map, List.length_range] at lengths
    have slots : u.layout.slots.length = n := layoutSize
    have gadgets : (Emitted.gadgets u.emitted).length = network.hCount :=
      length_gadgets unfolds width
    omega
  rw [allocated] at partition
  exact ⟨layoutSize, partition, numbered.1, numbered.2⟩

theorem circuit_eq_ok {c : Circuit} (built : network.circuit = .ok c) :
    ∃ u f, network.unfolded = .ok u ∧ Folded.ofStream u.stream u.width = .ok f ∧
      c = ⟨u, f.clifford, f.poly⟩ := by
  rw [circuit] at built
  cases unfolds : network.unfolded with
  | error e =>
    rw [unfolds] at built
    cases built
  | ok u =>
    rw [unfolds] at built
    simp only [bind, Except.bind, Unfolded.fold] at built
    cases folds : Folded.ofStream u.stream u.width with
    | error e =>
      rw [folds] at built
      cases built
    | ok f =>
      rw [folds] at built
      cases built
      exact ⟨u, f, rfl, folds, rfl⟩

/-- The stream teleports the logical run, whatever the outcomes. -/
theorem contract_stream (unfolds : network.unfolded = .ok u) (width : network.width? = some n)
    (distinct : ∀ s ∈ network.steps, ∀ g ∈ s.piece, ∀ k, g ≠ .cx k k) (angle : Nat → ℝ)
    {outcomes : List Bool} (enough : outcomes.length = network.hCount) {ψ : Wave}
    (h : ψ.Local n) :
    (((Amplitude.sqrtHalf : ℂ) ^ network.hCount • ψ).stream u.width angle 0 u.stream).contract
        ((u.gadgets.map Gadget.retired).zip outcomes) =
      (Op.branch n angle (Op.ofSteps 0 network.steps) outcomes ψ).placed u.layout := by
  obtain ⟨-, wide, r, layout, emission⟩ := network.unfolded_emission unfolds width
  have start : (Register.start n u.width).Sound (([] : List (Nat × Bool)).map Prod.fst) :=
    Register.start_sound (by omega)
  have home : ψ.placed (Register.start n u.width).placement = ψ := by
    funext v
    have slot : ∀ k, (Register.start n u.width).placement.slot k = k := Placement.slot_home n
    simp only [Wave.placed, slot]
  have before : ((Amplitude.sqrtHalf : ℂ) ^ network.hCount • ψ).contract [] =
      (Amplitude.sqrtHalf : ℂ) ^ outcomes.length •
        ψ.placed (Register.start n u.width).placement := by
    rw [enough, home]
    rfl
  rw [layout]
  exact emission.teleports start (Register.size_start ..) (gates_distinct distinct)
    (Op.rotations_ofSteps 0 network.steps) (enough.trans (congrArg _ network.gates_ops.symm)) angle
    u.gadgets h before

theorem beginning_eq (unfolds : network.unfolded = .ok u) (width : network.width? = some n) :
    u.beginning = (List.range' n network.hCount).map Gate.h := by
  obtain ⟨-, -, -, fresh⟩ := slots_partition unfolds width
  rw [Unfolded.beginning, Gadget.preparations, ← fresh, List.map_map]
  rfl

/-- Everything up to the measurements. -/
theorem prepare?_ofWave {f : Folded} (unfolds : network.unfolded = .ok u)
    (width : network.width? = some n) (folded : Folded.ofStream u.stream u.width = .ok f)
    (distinct : ∀ s ∈ network.steps, ∀ g ∈ s.piece, ∀ k, g ≠ .cx k k) {ψ : Wave} (h : ψ.Local n) :
    (State.ofWave n ψ).prepare? ⟨u, f.clifford, f.poly⟩ = some (State.ofWave u.width
      (((Amplitude.sqrtHalf : ℂ) ^ network.hCount • ψ).gates f.clifford)) := by
  obtain ⟨-, wide, r, -, emission⟩ := network.unfolded_emission unfolds width
  have start : (Register.start n u.width).Sound [] := Register.start_sound (by omega)
  have folds := (Folded.ofStream_eq_ok_iff.mp folded).1
  have middle := emission.middle start (Register.size_start ..) (gates_distinct distinct) u.gadgets
  have beginning := beginning_eq unfolds width
  have idle : ∀ k ∈ List.range' n network.hCount, ∀ v b, ψ (update v k b) = ψ v := by
    intro k hk v b
    apply h
    intro j hj
    have above : n ≤ k := (List.mem_range'_1.mp hk).1
    exact Function.update_of_ne (by omega) ..
  have freshFits : ∀ g ∈ u.beginning, g.fits u.width = true := by
    rw [beginning]
    intro g hg
    obtain ⟨k, hk, rfl⟩ := List.mem_map.mp hg
    have below : k < n + network.hCount := (List.mem_range'_1.mp hk).2
    simp only [Gate.fits, Gate.qubits, List.all_cons, List.all_nil, Bool.and_true,
      decide_eq_true_eq]
    omega
  have freshUnitary : ∀ g ∈ u.beginning, ∀ k id, g ≠ .meas k id := by
    rw [beginning]
    intro g hg
    obtain ⟨k, hk, rfl⟩ := List.mem_map.mp hg
    simp
  have le : n ≤ u.width := by omega
  have difference : u.width - n = network.hCount := by omega
  have prepared := Wave.gates_preparations List.nodup_range' idle
  rw [List.length_range', ← beginning, ← difference] at prepared
  rw [State.prepare?, State.widen?_ofWave le]
  simp only [Option.bind_eq_bind, Option.bind_some, State.applyGates?_ofWave _ freshFits freshUnitary]
  rw [prepared, difference]
  exact State.applyGates?_ofWave _ (fun g hg => folds (.gate g) (Folded.mem_clifford folded hg))
    (fun g hg => (middle g (Folded.mem_clifford folded hg)).2.2)

/-- The sign of step `k`. -/
def signAt (network : Network) (k : Nat) : Bool :=
  (network.get? k).any Step.sign

/-- Each step has its term, which turns by the sign of the step and the outcomes that
flip it. -/
theorem terms_turn {f : Folded} (unfolds : network.unfolded = .ok u)
    (width : network.width? = some n) (folded : Folded.ofStream u.stream u.width = .ok f)
    {outcomes : List Bool} (enough : outcomes.length = network.hCount) :
    f.poly.terms.length = network.size ∧ ∀ k t, f.poly.terms[k]? = some t →
      t.negated? outcomes =
        some (network.signAt k ^^ Gadget.turns (u.gadgets.zip outcomes) k) := by
  obtain ⟨-, -, r, -, emission⟩ := network.unfolded_emission unfolds width
  obtain ⟨-, -, numbered, -⟩ := slots_partition unfolds width
  obtain ⟨-, rfl⟩ := Folded.ofStream_eq_ok_iff.mp folded
  have listed : (u.stream.foldl Folded.absorbed ⟨.empty u.width, []⟩).poly.terms.map Term.negated? =
      network.steps.zipIdx.map fun x outcomes =>
        flippedSign? x.1.sign outcomes (Gadget.flipping u.gadgets x.2) := by
    rw [Folded.negated_foldl]
    refine (emission.negated u.gadgets).trans ?_
    rw [Op.turns_ofSteps, List.map_map]
    rfl
  have ids : ∀ k, ∀ id ∈ Gadget.flipping u.gadgets k, id < outcomes.length := by
    intro k id hid
    obtain ⟨g, hg, rfl⟩ := List.mem_map.mp hid
    have number : g.id ∈ u.gadgets.map Gadget.id :=
      List.mem_map_of_mem (List.mem_of_mem_filter hg)
    rw [numbered, List.mem_range'_1] at number
    omega
  constructor
  · simpa [size] using congrArg List.length listed
  · intro k t ht
    have entry := congrArg (·[k]?) listed
    simp only [List.getElem?_map, ht, Option.map_some, List.getElem?_zipIdx, Nat.zero_add] at entry
    cases found : network.steps[k]? with
    | none =>
      rw [found] at entry
      cases entry
    | some s =>
      rw [found, Option.map_some, Option.map_some, Option.some.injEq] at entry
      have turned : t.negated? outcomes =
          flippedSign? s.sign outcomes (Gadget.flipping u.gadgets k) := congrFun entry outcomes
      rw [turned, flippedSign?_eq (ids k), Gadget.odd_flipping
        (known_of_numbered (enough.symm ▸ numbered)), signAt, get?, found, Option.any_some]

/-- The slots that are measured, with their outcomes, and those of the qubits. -/
theorem found_partition (unfolds : network.unfolded = .ok u) (width : network.width? = some n)
    {outcomes : List Bool} (enough : outcomes.length = network.hCount) :
    (((u.gadgets.map Gadget.retired).zip outcomes).map Prod.fst ++ u.layout.slots).Perm
      (List.range u.width) := by
  have slots : ((u.gadgets.map Gadget.retired).zip outcomes).map Prod.fst =
      u.gadgets.map Gadget.retired := by
    apply List.map_fst_zip
    rw [List.length_map, length_gadgets unfolds width, enough]
  rw [slots]
  exact (slots_partition unfolds width).2.1

/-- However the measurements end, they leave the logical run under their outcomes. -/
theorem collapse_stream (unfolds : network.unfolded = .ok u) (width : network.width? = some n)
    (distinct : ∀ s ∈ network.steps, ∀ g ∈ s.piece, ∀ k, g ≠ .cx k k) (angle : Nat → ℝ)
    {outcomes : List Bool} (enough : outcomes.length = network.hCount) {ψ : Wave}
    (h : ψ.Local n) :
    (((Amplitude.sqrtHalf : ℂ) ^ network.hCount • ψ).stream u.width angle 0 u.stream).collapse
        ((u.gadgets.map Gadget.retired).zip outcomes) =
      (Amplitude.sqrtHalf : ℂ) ^ network.hCount •
        ((Op.branch n angle (Op.ofSteps 0 network.steps) outcomes ψ).placed u.layout).keepAll
          ((u.gadgets.map Gadget.retired).zip outcomes) := by
  have partition := found_partition unfolds width enough
  have nodup := partition.nodup_iff.mpr List.nodup_range
  rw [Wave.collapse_eq (List.nodup_append.mp nodup).1,
    contract_stream unfolds width distinct angle enough h, List.length_zip, List.length_map,
    length_gadgets unfolds width, enough, Nat.min_self]

/-- All outcomes of the measurements have the same probability. -/
theorem weight_collapse_stream (unfolds : network.unfolded = .ok u)
    (width : network.width? = some n)
    (distinct : ∀ s ∈ network.steps, ∀ g ∈ s.piece, ∀ k, g ≠ .cx k k) (angle : Nat → ℝ)
    {outcomes : List Bool} (enough : outcomes.length = network.hCount) {ψ : Wave}
    (h : ψ.Local n) (normalized : ψ.weight n = 1) :
    ((((Amplitude.sqrtHalf : ℂ) ^ network.hCount • ψ).stream u.width angle 0 u.stream).collapse
      ((u.gadgets.map Gadget.retired).zip outcomes)).weight u.width =
        (1 / 2) ^ network.hCount := by
  have partition := found_partition unfolds width enough
  obtain ⟨layoutSize, -⟩ := slots_partition unfolds width
  have fits := gates_fit unfolds width
  have looks := Op.local_branch fits angle outcomes h
  rw [collapse_stream unfolds width distinct angle enough h, Wave.weight_smul,
    Wave.weight_placed partition (layoutSize.symm ▸ looks), layoutSize, Op.weight_branch fits,
    normalized, mul_one, map_pow, Wave.normSq_sqrtHalf]

theorem corrections_lift (unfolds : network.unfolded = .ok u) (width : network.width? = some n) :
    List.Forall₂ (u.layout.Lifts u.width)
      ((Hadamard.ofOps (Op.ofSteps 0 network.steps)).map (Hadamard.left n)) u.corrections := by
  obtain ⟨-, -, r, layout, emission⟩ := network.unfolded_emission unfolds width
  rw [Unfolded.corrections, Gadget.corrections, List.forall₂_map_left_iff,
    List.forall₂_map_right_iff, layout]
  exact emission.replaces.imp fun h g replaces => replaces.correction

/-- The measurements, the corrections and what is read at the end. -/
theorem finish_stream (f : Folded) (unfolds : network.unfolded = .ok u)
    (width : network.width? = some n)
    (distinct : ∀ s ∈ network.steps, ∀ g ∈ s.piece, ∀ k, g ≠ .cx k k) (angle : Nat → ℝ)
    {outcomes : List Bool} (enough : outcomes.length = network.hCount) {ψ : Wave}
    (h : ψ.Local n) (normalized : ψ.weight n = 1) :
    ∃ r : State.Readout ℂ ℝ, (Gadget.readout u.gadgets).foldlM (State.Readout.next outcomes)
        ⟨State.ofWave u.width
          (((Amplitude.sqrtHalf : ℂ) ^ network.hCount • ψ).stream u.width angle 0 u.stream), 0, []⟩ =
        .ok r ∧ r.probabilities = List.replicate network.hCount (1 / 2) ∧
      State.finish? r ⟨u, f.clifford, f.poly⟩ outcomes = some (State.ofWave n
        ((Op.branch n angle (Op.ofSteps 0 network.steps) outcomes ψ).correct
          (((Hadamard.ofOps (Op.ofSteps 0 network.steps)).map (Hadamard.left n)).zip
            outcomes))) := by
  have count := length_gadgets unfolds width
  have partition := found_partition unfolds width enough
  obtain ⟨layoutSize, slots, numbered, -⟩ := slots_partition unfolds width
  have lifts := corrections_lift unfolds width
  have nodup : (u.gadgets.map Gadget.retired ++ u.layout.slots).Nodup :=
    slots.nodup_iff.mpr List.nodup_range
  obtain ⟨-, distinctSlots, apart⟩ := List.nodup_append.mp nodup
  have inside : ∀ j ∈ u.gadgets.map Gadget.retired ++ u.layout.slots, j < u.width :=
    fun j hj => List.mem_range.mp (slots.mem_iff.mp hj)
  have readout := State.readout_run
    (fun g hg => inside _ (List.mem_append_left _ (List.mem_map_of_mem hg)))
    (known_of_numbered (enough.symm ▸ numbered))
    (fun cs length => by
      rw [count] at length ⊢
      exact weight_collapse_stream unfolds width distinct angle length h normalized) 0 []
  refine ⟨_, readout, by rw [count, List.nil_append], ?_⟩
  have scaled : (Amplitude.sqrtHalf : ℂ)⁻¹ ^ u.gadgets.length •
      (((Amplitude.sqrtHalf : ℂ) ^ network.hCount • ψ).stream u.width angle 0 u.stream).collapse
        ((u.gadgets.map Gadget.retired).zip outcomes) =
      ((Op.branch n angle (Op.ofSteps 0 network.steps) outcomes ψ).placed u.layout).keepAll
        ((u.gadgets.map Gadget.retired).zip outcomes) := by
    rw [collapse_stream unfolds width distinct angle enough h, count, smul_smul, ← mul_pow,
      inv_mul_cancel₀ Wave.sqrtHalf_ne_zero, one_pow, one_smul]
  have looks : (Op.branch n angle (Op.ofSteps 0 network.steps) outcomes ψ).Local u.layout.size :=
    layoutSize.symm ▸ Op.local_branch (gates_fit unfolds width) angle outcomes h
  have retired : ∀ x ∈ (u.gadgets.map Gadget.retired).zip outcomes, x.1 ∉ u.layout.slots :=
    fun x hx live => apart x.1 (List.of_mem_zip hx).1 x.1 live rfl
  have corrected := Wave.correct_placed lifts distinctSlots
    (fun j hj => inside j (List.mem_append_right _ hj)) retired outcomes looks
  have wide : ∀ x ∈ u.corrections.zip outcomes, x.1.size ≤ u.width := by
    intro x hx
    obtain ⟨k, hk⟩ := List.getElem?_of_mem (List.of_mem_zip hx).1
    obtain ⟨p, -, lift⟩ := forall₂_getElem? lifts.flip hk
    exact Nat.le_of_eq lift.wide
  have narrow : ∀ x ∈ ((Hadamard.ofOps (Op.ofSteps 0 network.steps)).map
      (Hadamard.left n)).zip outcomes, x.1.size ≤ u.layout.size := by
    intro x hx
    obtain ⟨k, hk⟩ := List.getElem?_of_mem (List.of_mem_zip hx).1
    obtain ⟨q, -, lift⟩ := forall₂_getElem? lifts hk
    exact Nat.le_of_eq lift.size
  rw [State.finish?, scaled, State.applyCorrections?_ofWave wide, corrected]
  simp only [Option.bind_eq_bind, Option.bind_some]
  rw [State.restrict?_ofWave partition (looks.correct narrow), layoutSize]

/-- **The run of a circuit.** Every outcome has probability one half, and the result is
the logical run under the outcomes, with what they leave undone again. -/
theorem runCircuit_ofWave {c : Circuit} (built : network.circuit = .ok c)
    (width : network.width? = some n)
    (distinct : ∀ s ∈ network.steps, ∀ g ∈ s.piece, ∀ k, g ≠ .cx k k) {angles : List ℝ}
    {outcomes : List Bool} (enoughAngles : angles.length = network.size)
    (enoughOutcomes : outcomes.length = network.hCount) {ψ : Wave} (h : ψ.Local n)
    (normalized : ψ.weight n = 1) :
    (State.ofWave n ψ).runCircuit c angles outcomes = .ok
      ⟨State.ofWave n ((Op.branch n (fun k => State.signed
          (network.signAt k ^^ Gadget.turns (c.gadgets.zip outcomes) k) (angles.getD k 0))
            (Op.ofSteps 0 network.steps) outcomes ψ).correct
          (((Hadamard.ofOps (Op.ofSteps 0 network.steps)).map (Hadamard.left n)).zip outcomes)),
        List.replicate network.hCount (1 / 2)⟩ := by
  obtain ⟨u, f, unfolds, folded, rfl⟩ := circuit_eq_ok built
  obtain ⟨-, wide, r, -, emission⟩ := network.unfolded_emission unfolds width
  obtain ⟨termCount, turns⟩ := terms_turn unfolds width folded enoughOutcomes
  have start : (Register.start n u.width).Sound [] := Register.start_sound (by omega)
  have middle := emission.middle start (Register.size_start ..) (gates_distinct distinct) u.gadgets
  let angle : Nat → ℝ := fun k => State.signed
    (network.signAt k ^^ Gadget.turns (u.gadgets.zip outcomes) k) (angles.getD k 0)
  have terms : (State.ofWave u.width
        (((Amplitude.sqrtHalf : ℂ) ^ network.hCount • ψ).gates f.clifford)).runTerms outcomes
      (f.poly.terms.zip angles) = .ok (State.ofWave u.width
        (((Amplitude.sqrtHalf : ℂ) ^ network.hCount • ψ).stream u.width angle 0 u.stream)) := by
    rw [← Folded.act_ofStream folded middle]
    exact State.runTerms_ofWave (enoughAngles.trans termCount.symm)
      (fun k t ht => ⟨_, turns k t ht, by rw [Nat.zero_add]⟩) _
  obtain ⟨readout, measured, halves, finished⟩ := finish_stream f unfolds width distinct angle
    enoughOutcomes h normalized
  rw [State.runCircuit, prepare?_ofWave unfolds width folded distinct h]
  simp only [Option.elim_some, bind, Except.bind, terms, Unfolded.ending, measured, finished, halves,
    pure, Except.pure]
  rfl

end Network

end HadamardFree
