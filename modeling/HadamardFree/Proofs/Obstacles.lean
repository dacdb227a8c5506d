import HadamardFree.Proofs.Propagation
import HadamardFree.Proofs.Symmetry

/-!
# What stops a byproduct

A byproduct is followed through gates and axes that nobody has checked. It stops at the first one
that it cannot pass, and at nothing else.

* `Op.Obstacle`: what stops it at an operation, given the register in front of it;
* `Op.Clear`, `Op.Stops`: operations without an obstacle, and the first obstacle of a list;
* `Front.Intact`: the slots of the qubits are slots of the operator, whatever the operator is;
* `Front.Intact.passOp_of_obstacle`, `Front.Intact.passOp_of_clear`: one operation stops the walk or
  leaves it intact; `Front.Intact.foldlM_eq_error_iff` has the same for all of them;
* `byproduct_stops_at_first_obstacle`: the whole walk, on every register that can come up.
-/

namespace HadamardFree

/-- The register behind operations of a network, where each H gate has moved its qubit. -/
def Register.behind (r : Register) (ops : List Op) : Register :=
  (Op.gates ops).foldl Register.after r

theorem Register.behind_cons (r : Register) (op : Op) (ops : List Op) :
    r.behind (op :: ops) = (r.behind [op]).behind ops := by
  cases op <;> rfl

/-! ## Obstacles -/

namespace Op

/-- What stops a byproduct at an operation, if `r` is the register in front of it, with `n` qubits
on `width` slots. Whether the qubits of a gate exist comes first. A CZ gate or a measurement, which
nothing is conjugated by, is named with the slots that its qubits hold. -/
inductive Obstacle (n width : Nat) (r : Register) : Op → GadgetError → Prop
  | outside {step : Nat} {g : Gate} {q : Nat} (acts : q ∈ g.qubits) (beyond : n ≤ q) :
      Obstacle n width r (.gate step g) (.qubitOutOfRange step g n)
  | full {step k : Nat} (inside : k < n) (handedOut : r.allocated = width) :
      Obstacle n width r (.gate step (.h k)) (.registerFull width)
  | unsupported {step : Nat} {g : Gate} (inside : ∀ q ∈ g.qubits, q < n)
      (kind : g.isElementary = false) :
      Obstacle n width r (.gate step g)
        (.conjugation (.unsupportedGate (g.rename r.placement.slot)))
  | axis {step : Nat} {axis : Pauli} {sign : Bool} (other : axis.size ≠ n) :
      Obstacle n width r (.rotation step axis sign) (.malformedRotation step n axis.size)

variable {n width : Nat} {r : Register} {op : Op} {ops : List Op} {e : GadgetError}

/-- No operation is an obstacle on the register that those before it leave. -/
def Clear (n width : Nat) (r : Register) (ops : List Op) : Prop :=
  ∀ before op after, ops = before ++ op :: after → ∀ e, ¬ op.Obstacle n width (r.behind before) e

/-- The first obstacle among the operations. -/
def Stops (n width : Nat) (r : Register) (ops : List Op) (e : GadgetError) : Prop :=
  ∃ before op after, ops = before ++ op :: after ∧ Clear n width r before ∧
    op.Obstacle n width (r.behind before) e

theorem clear_nil : Clear n width r [] := by
  intro before op after split
  simp at split

theorem clear_cons : Clear n width r (op :: ops) ↔
    (∀ e, ¬ op.Obstacle n width r e) ∧ Clear n width (r.behind [op]) ops := by
  constructor
  · intro clear
    refine ⟨clear [] op ops rfl, fun before op' after split => ?_⟩
    rw [← Register.behind_cons]
    exact clear (op :: before) op' after (by rw [split, List.cons_append])
  · rintro ⟨first, clear⟩ before op' after split
    cases before with
    | nil =>
      cases split
      exact first
    | cons b before =>
      cases split
      rw [Register.behind_cons]
      exact clear before op' after rfl

theorem not_stops_nil : ¬ Stops n width r [] e := by
  rintro ⟨before, op, after, split, -⟩
  simp at split

theorem stops_cons : Stops n width r (op :: ops) e ↔ op.Obstacle n width r e ∨
    (∀ e', ¬ op.Obstacle n width r e') ∧ Stops n width (r.behind [op]) ops e := by
  constructor
  · rintro ⟨before, op', after, split, clear, obstacle⟩
    cases before with
    | nil =>
      cases split
      exact .inl obstacle
    | cons b before =>
      cases split
      rw [clear_cons] at clear
      rw [Register.behind_cons] at obstacle
      exact .inr ⟨clear.1, before, op', after, rfl, clear.2, obstacle⟩
  · rintro (obstacle | ⟨first, before, op', after, rfl, clear, obstacle⟩)
    · exact ⟨[], op, ops, rfl, clear_nil, obstacle⟩
    · refine ⟨op :: before, op', after, rfl, clear_cons.mpr ⟨first, clear⟩, ?_⟩
      rw [Register.behind_cons]
      exact obstacle

theorem clear_iff_not_stops : Clear n width r ops ↔ ∀ e, ¬ Stops n width r ops e := by
  induction ops generalizing r with
  | nil => exact ⟨fun _ _ => not_stops_nil, fun _ => clear_nil⟩
  | cons op ops ih =>
    simp only [clear_cons, stops_cons, ih]
    grind

/-- A gate that is no obstacle acts on the operators of the qubits, and an H gate finds a slot. -/
theorem carries_of_clear {step : Nat} {g : Gate}
    (clear : ∀ e, ¬ (gate step g).Obstacle n width r e) :
    g.Carries n ∧ (g.isH = true → r.allocated ≠ width) := by
  have inside : ∀ q ∈ g.qubits, q < n := by
    intro q acts
    by_contra beyond
    exact clear _ (.outside acts (Nat.le_of_not_lt beyond))
  have kind : g.isElementary = true := by
    by_contra other
    exact clear _ (.unsupported inside (Bool.eq_false_iff.mpr other))
  refine ⟨⟨kind, Gate.fits_iff.mpr inside⟩, ?_⟩
  intro turn full
  cases g with
  | h k => exact clear _ (.full (inside k (List.mem_singleton_self k)) full)
  | s | cx | cz | meas => cases turn

end Op

/-! ## The walk -/

theorem map_eq_error_iff {ε α β : Type} {x : Except ε α} {f : α → β} {e : ε} :
    x.map f = .error e ↔ x = .error e := by
  cases x <;> simp [Except.map]

theorem Pauli.exists_moveLetter {p : Pauli} {source target : Nat} (hs : source < p.size)
    (ht : target < p.size) : ∃ q, p.moveLetter source target = .ok q ∧ q.size = p.size := by
  refine ⟨_, by rw [moveLetter, if_pos hs, if_pos ht], ?_⟩
  simp [Pauli.size]

namespace Front

/-- Passes one operation of a network. An axis is only placed. -/
def passOp (f : Front) : Op → Except GadgetError Front
  | .gate step g => f.passGate step g
  | .rotation step axis _ => (f.register.placeAxis step axis).map fun _ => f

/-- The walk through whole steps passes their operations one by one, and ends with the operator. -/
theorem passSteps_eq_foldlM (step : Nat) (f : Front) (later : List Step) :
    (f.passSteps step later).map Byproduct.correction =
      ((Op.ofSteps step later).foldlM passOp f).map Front.operator := by
  induction later generalizing step f with
  | nil => rfl
  | cons s later ih =>
    have piece : (s.piece.map (Op.gate step)).foldlM passOp f = f.passPiece step s.piece := by
      rw [List.foldlM_map]
      rfl
    rw [passSteps, Op.ofSteps, Op.ofStep, List.foldlM_append, List.foldlM_append, piece]
    cases f.passPiece step s.piece with
    | error e => rfl
    | ok f' =>
      cases placed : f'.register.placeAxis step s.axis with
      | error e => simp [passOp, placed, bind, Except.bind, Except.map]
      | ok axis =>
        have rest := ih (step + 1) f'
        cases walked : f'.passSteps (step + 1) later with
        | error e =>
          rw [walked] at rest
          simpa [passOp, placed, walked, bind, Except.bind, pure, Except.pure, Except.map]
            using rest
        | ok b =>
          -- Whether the axis commutes shows in the flips alone, and these are left out.
          rw [walked] at rest
          cases commutes : axis.commutes f'.operator <;>
            simpa [passOp, placed, walked, commutes, bind, Except.bind, pure, Except.pure,
              Except.map] using rest

/-- The register is in order, and the operator has a letter for each of its slots. -/
structure Intact (n width : Nat) (f : Front) : Prop where
  size : f.register.size = n
  slots : f.register.width = width
  sound : ∃ retired, f.register.Sound retired
  wide : f.operator.size = width

namespace Intact

variable {n width : Nat} {f : Front} {op : Op} {ops : List Op} {e : GadgetError}

theorem slot_lt (h : f.Intact n width) {k : Nat} (hk : k < n) :
    f.register.placement.slot k < f.operator.size := by
  obtain ⟨retired, sound⟩ := h.sound
  rw [h.wide, ← h.slots]
  exact sound.slot_lt (Placement.slot_mem (Nat.lt_of_lt_of_eq hk h.size.symm))

/-- Every qubit has a slot, and every slot is one of the operator. -/
theorem get? (h : f.Intact n width) {k : Nat} (hk : k < n) :
    ∃ slot, f.register.placement.get? k = some slot ∧ slot < width := by
  have placed : k < f.register.placement.size := Nat.lt_of_lt_of_eq hk h.size.symm
  exact ⟨_, Placement.get?_eq_slot placed, h.wide ▸ h.slot_lt hk⟩

theorem passOp_of_obstacle (h : f.Intact n width) (obstacle : op.Obstacle n width f.register e) :
    f.passOp op = .error e := by
  obtain ⟨operator, r⟩ := f
  obtain ⟨rfl, rfl, -, -⟩ := h
  cases obstacle with
  | @outside step g q acts beyond =>
    have unfit : g.fits r.size = false := by
      simpa [Gate.fits] using ⟨q, acts, beyond⟩
    simp [passOp, passGate, Register.placeGate, Register.place, unfit]
  | @full step k inside handedOut =>
    have fits : (Gate.h k).fits r.size = true := by simpa [Gate.fits, Gate.qubits] using inside
    have refused : r.moveQubit k = .error .full :=
      if_neg (Nat.not_lt.mpr (Nat.le_of_eq handedOut.symm))
    simp [passOp, passGate, Register.placeGate, Register.place, fits, refused, Except.map]
  | @unsupported step g inside kind =>
    have other : g.isH = false := by
      cases g with
      | h k => cases kind
      | s | cx | cz | meas => rfl
    rw [passOp, passGate, Register.placeGate_of_not_isH (Gate.fits_iff.mpr inside) other]
    cases g with
    | h | s | cx => cases kind
    | cz | meas => rfl
  | @axis step axis sign other =>
    have unplaced : r.lift? axis = none := by
      refine if_neg fun fits => other ?_
      exact fits.1
    simp [passOp, Register.placeAxis, unplaced, Except.map]

/-- A gate that acts on the operators of the qubits is passed, if an H gate finds a slot. -/
theorem passGate_eq_ok (h : f.Intact n width) {g : Gate} (carries : g.Carries n)
    (free : g.isH = true → f.register.allocated < width) (step : Nat) :
    ∃ operator, f.passGate step g = .ok ⟨operator, f.register.after g⟩ ∧
      operator.size = width := by
  have fits : g.fits f.register.size = true := by
    rw [h.size]
    exact carries.2
  cases turn : g.isH with
  | true =>
    obtain ⟨k, rfl⟩ := Gate.eq_h_of_isH turn
    have hk : k < n := Gate.carries_h_iff.mp carries
    have room : f.register.allocated < width := free turn
    obtain ⟨turned, conjugated⟩ :=
      (f.operator.conjugateGate_isOk _).mpr (Gate.carries_h_iff.mpr (h.slot_lt hk))
    have size : turned.size = f.operator.size := Pauli.size_of_conjugateGate conjugated
    obtain ⟨left, moved, size'⟩ := Pauli.exists_moveLetter (p := turned)
      (by rw [size]; exact h.slot_lt hk) (by rw [size, h.wide]; exact room)
    refine ⟨left, ?_, by rw [size', size, h.wide]⟩
    rw [passGate, Register.placeGate_h (Nat.lt_of_lt_of_eq hk h.size.symm)
      (Nat.lt_of_lt_of_eq room h.slots.symm)]
    simp only [conjugate, conjugated, moved, bind, Except.bind, pure, Except.pure, Except.mapError]
    rfl
  | false =>
    have placed : (g.rename f.register.placement.slot).Carries f.operator.size := by
      refine ⟨by cases g <;> exact carries.1, Gate.fits_iff.mpr ?_⟩
      rw [Gate.qubits_rename, List.forall_mem_map]
      exact fun k hk => h.slot_lt (Gate.fits_iff.mp carries.2 k hk)
    obtain ⟨left, conjugated⟩ := (f.operator.conjugateGate_isOk _).mpr placed
    have stays : f.register.after g = f.register := by
      cases g with
      | h k => cases turn
      | s | cx | cz | meas => rfl
    refine ⟨left, ?_, by rw [Pauli.size_of_conjugateGate conjugated, h.wide]⟩
    rw [passGate, Register.placeGate_of_not_isH fits turn, stays]
    simp only [conjugate, conjugated, bind, Except.bind, pure, Except.pure, Except.mapError]

theorem passOp_of_clear (h : f.Intact n width)
    (clear : ∀ e, ¬ op.Obstacle n width f.register e) :
    ∃ operator, f.passOp op = .ok ⟨operator, f.register.behind [op]⟩ ∧
      Intact n width ⟨operator, f.register.behind [op]⟩ := by
  obtain ⟨retired, sound⟩ := h.sound
  cases op with
  | gate step g =>
    obtain ⟨carries, free⟩ := Op.carries_of_clear clear
    have handedOut : f.register.allocated ≤ width := h.slots ▸ sound.room
    have room : g.isH = true → f.register.allocated < width :=
      fun turn => Nat.lt_of_le_of_ne handedOut (free turn)
    obtain ⟨operator, passed, wide⟩ := h.passGate_eq_ok carries room step
    have after : ∃ retired', (f.register.after g).Sound retired' := by
      apply sound.after (h.size ▸ carries)
      rw [h.slots]
      split
      · exact room ‹_›
      · exact handedOut
    exact ⟨operator, passed, (Register.size_after ..).trans h.size,
      (Register.width_after ..).trans h.slots, after, wide⟩
  | rotation step axis sign =>
    have size : axis.size = f.register.size := by
      rw [h.size]
      by_contra other
      exact clear _ (.axis other)
    obtain ⟨lifted, placed, -⟩ := sound.placeAxis size step
    refine ⟨f.operator, ?_, h⟩
    rw [passOp, placed]
    rfl

/-- Only an obstacle stops the walk, since anything else is passed. -/
theorem passOp_eq_error_iff (h : f.Intact n width) :
    f.passOp op = .error e ↔ op.Obstacle n width f.register e := by
  refine ⟨fun stopped => ?_, h.passOp_of_obstacle⟩
  by_contra other
  have clear : ∀ e', ¬ op.Obstacle n width f.register e' := by
    intro e' obstacle
    rw [h.passOp_of_obstacle obstacle] at stopped
    cases stopped
    exact other obstacle
  obtain ⟨operator, passed, -⟩ := h.passOp_of_clear clear
  rw [passed] at stopped
  cases stopped

/-- Operations without an obstacle are passed, and leave the walk intact. -/
theorem foldlM_of_clear (h : f.Intact n width) (clear : Op.Clear n width f.register ops) :
    ∃ operator, ops.foldlM passOp f = .ok ⟨operator, f.register.behind ops⟩ ∧
      Intact n width ⟨operator, f.register.behind ops⟩ := by
  induction ops generalizing f with
  | nil => exact ⟨f.operator, rfl, h⟩
  | cons op ops ih =>
    obtain ⟨first, rest⟩ := Op.clear_cons.mp clear
    obtain ⟨operator, passed, intact⟩ := h.passOp_of_clear first
    obtain ⟨operator', passed', intact'⟩ := ih intact rest
    rw [Register.behind_cons f.register op ops]
    refine ⟨operator', ?_, intact'⟩
    rw [List.foldlM_cons, passed]
    exact passed'

/-- The walk stops at the first obstacle. -/
theorem foldlM_eq_error_iff (h : f.Intact n width) :
    ops.foldlM passOp f = .error e ↔ Op.Stops n width f.register ops e := by
  induction ops generalizing f with
  | nil =>
    refine ⟨fun stopped => ?_, fun stops => absurd stops Op.not_stops_nil⟩
    cases stopped
  | cons op ops ih =>
    rw [List.foldlM_cons, Op.stops_cons]
    by_cases clear : ∀ e', ¬ op.Obstacle n width f.register e'
    · obtain ⟨operator, passed, intact⟩ := h.passOp_of_clear clear
      rw [passed]
      simp only [bind, Except.bind, ih intact, clear, false_or, not_false_eq_true, implies_true,
        true_and]
    · obtain ⟨e', obstacle⟩ := not_forall_not.mp clear
      rw [h.passOp_of_obstacle obstacle, ← h.passOp_eq_error_iff, h.passOp_of_obstacle obstacle]
      simp only [bind, Except.bind, clear, false_and, or_false]

end Intact

end Front

namespace Byproduct

variable {n width start target : Nat} {r : Register} {tail : List Gate} {later : List Step}
  {e : GadgetError}

/-- The operations behind a gate of step `start`: the `tail` of its piece, and then the later steps.
The axis of step `start` is none of them. -/
def opsBehind (start : Nat) (tail : List Gate) (later : List Step) : List Op :=
  tail.map (.gate start) ++ Op.ofSteps (start + 1) later

theorem follow_eq_foldlM (start : Nat) (tail : List Gate) (later : List Step) (target : Nat)
    (r : Register) :
    (follow start tail later target r).map Byproduct.correction =
      ((opsBehind start tail later).foldlM Front.passOp ⟨.single r.width target .X, r⟩).map
        Front.operator := by
  have piece : (tail.map (Op.gate start)).foldlM Front.passOp ⟨.single r.width target .X, r⟩ =
      Front.passPiece start ⟨.single r.width target .X, r⟩ tail := by
    rw [List.foldlM_map]
    rfl
  rw [follow, opsBehind, List.foldlM_append, piece]
  cases Front.passPiece start ⟨.single r.width target .X, r⟩ tail with
  | error e => rfl
  | ok f =>
    refine Eq.trans ?_ (f.passSteps_eq_foldlM (start + 1) later)
    simp only [bind, Except.bind]
    cases f.passSteps (start + 1) later <;> rfl

/-- An X on a register that is in order starts an intact walk. -/
theorem intact_single (reach : r.Reachable n width) (target : Nat) :
    Front.Intact n width ⟨.single r.width target .X, r⟩ := by
  obtain ⟨size, slots, sound⟩ := reach.sound
  exact ⟨size, slots, sound, (Pauli.size_single ..).trans slots⟩

theorem follow_eq_error_iff (reach : r.Reachable n width) :
    follow start tail later target r = .error e ↔
      Op.Stops n width r (opsBehind start tail later) e := by
  rw [← map_eq_error_iff, follow_eq_foldlM, map_eq_error_iff]
  exact (intact_single reach target).foldlM_eq_error_iff

theorem exists_follow_iff (reach : r.Reachable n width) :
    (∃ b, follow start tail later target r = .ok b) ↔
      Op.Clear n width r (opsBehind start tail later) := by
  rw [Op.clear_iff_not_stops]
  constructor
  · rintro ⟨b, followed⟩ e stops
    rw [follow_eq_error_iff reach |>.mpr stops] at followed
    cases followed
  · intro passed
    cases followed : follow start tail later target r with
    | error e => exact absurd ((follow_eq_error_iff reach).mp followed) (passed e)
    | ok b => exact ⟨b, rfl⟩

/-- Whatever the walk looks up, it finds: each operation that it comes to has a register in front of
it where every qubit has a slot. -/
theorem get?_behind (reach : r.Reachable n width) {before : List Op}
    (clear : Op.Clear n width r before) {k : Nat} (hk : k < n) :
    ∃ slot, (r.behind before).placement.get? k = some slot ∧ slot < width := by
  obtain ⟨operator, -, intact⟩ := (intact_single reach 0).foldlM_of_clear clear
  exact intact.get? hk

/-- The axis of step `start` can be any other. -/
theorem ofGate?_set_axis {network : Network} {first : Step}
    (found : network.get? start = some first) (axis : Pauli) (offset target : Nat) (r : Register) :
    ofGate? ⟨network.steps.set start { first with axis := axis }⟩ start offset target r =
      ofGate? network start offset target r := by
  have bound : start < network.steps.length := (List.getElem?_eq_some_iff.mp found).1
  have replaced : Network.get? ⟨network.steps.set start { first with axis := axis }⟩ start =
      some { first with axis := axis } := List.getElem?_set_self bound
  rw [ofGate?, ofGate?, found, replaced, List.drop_set_of_lt (Nat.lt_succ_self start)]

end Byproduct

/-- **A byproduct stops at the first obstacle.** For any network, and on any register that can come
up, the slot is looked at first and then the step. Behind the gate at `offset`, the gates and axes
are passed in order up to the first that is an obstacle, and it alone is the error: there is a
correction exactly if none is. In front of each of them every qubit has a slot of the register, so
that nothing is looked up in vain. The axis of the step itself is not looked at. There is an answer
exactly if an operator on the whole register can be laid out and the position behind the gate is a
word. -/
theorem byproduct_stops_at_first_obstacle {n width : Nat} {r : Register}
    (reach : r.Reachable n width) (network : Network) (start offset target : Nat) :
    (width ≤ target → Byproduct.ofGate? network start offset target r =
      some (.error (.conjugation (.qubitOutOfRange target width)))) ∧
    (target < width → network.size ≤ start → Byproduct.ofGate? network start offset target r =
      some (.error (.stepOutOfRange start network.size))) ∧
    ∀ first, target < width → network.get? start = some first →
      let ops := Byproduct.opsBehind start (first.piece.drop (offset + 1))
        (network.steps.drop (start + 1))
      (byteLimit ≤ width → Byproduct.ofGate? network start offset target r = none) ∧
      (wordLimit ≤ offset + 1 → Byproduct.ofGate? network start offset target r = none) ∧
      (width < byteLimit → offset + 1 < wordLimit → ∃ result,
        Byproduct.ofGate? network start offset target r = some result ∧
        (∀ e, result = .error e ↔ Op.Stops n width r ops e) ∧
        ((∃ b, result = .ok b) ↔ Op.Clear n width r ops)) ∧
      (∀ before op after, ops = before ++ op :: after → Op.Clear n width r before →
        ∀ k < n, ∃ slot, (r.behind before).placement.get? k = some slot ∧ slot < width) ∧
      ∀ axis, Byproduct.ofGate? ⟨network.steps.set start { first with axis := axis }⟩ start offset
        target r = Byproduct.ofGate? network start offset target r := by
  obtain ⟨-, rfl, -⟩ := reach.sound
  refine ⟨fun outside => ?_, fun inside past => ?_, fun first inside found =>
    ⟨fun wide => Byproduct.ofGate?_eq_none inside found (.inl wide),
    fun far => Byproduct.ofGate?_eq_none inside found (.inr far), fun narrow near => ?_,
    fun before _ _ _ clear k hk => Byproduct.get?_behind reach clear hk,
    fun axis => Byproduct.ofGate?_set_axis found axis offset target r⟩⟩
  · rw [Byproduct.ofGate?, if_neg (Nat.not_lt.mpr outside)]
  · have missing : network.get? start = none := List.getElem?_eq_none past
    rw [Byproduct.ofGate?, if_pos inside, missing]
  · exact ⟨_, Byproduct.ofGate?_eq_follow inside found narrow near,
      fun e => Byproduct.follow_eq_error_iff reach, Byproduct.exists_follow_iff reach⟩

/-- Two qubits on four slots, the first of them moved once. An H gate moves the second, and the CZ
gate behind it is named with the slots that the two hold by then. -/
theorem byproduct_stops_at_controlled_z :
    let first : Step := ⟨[.h 0, .h 1], ⟨[.Z, .I]⟩, false⟩
    let network : Network := ⟨[first, ⟨[.cz 0 1, .s 9], ⟨[.Z]⟩, false⟩]⟩
    let r := (Register.start 2 4).moved 0
    r.Reachable 2 4 ∧ Byproduct.ofGate? network 0 0 2 r =
      some (.error (.conjugation (.unsupportedGate (.cz 2 3)))) := by
  intro first network r
  have reach : r.Reachable 2 4 :=
    .move (.start (by decide)) (k := 0) (by decide) (Register.moveQubit_eq (by decide) (by decide))
  obtain ⟨-, -, walk⟩ := byproduct_stops_at_first_obstacle reach network 0 0 2
  obtain ⟨-, -, answered, -⟩ := walk first (by decide) rfl
  obtain ⟨result, answer, stops, -⟩ := answered (by decide) (by decide)
  have moves : ∀ e, ¬ (Op.gate 0 (.h 1)).Obstacle 2 4 r e := by
    intro e obstacle
    cases obstacle with
    | outside acts beyond => simp [Gate.qubits] at acts; omega
    | full inside handedOut => cases handedOut
    | unsupported inside kind => cases kind
  have stopped : result = .error (.conjugation (.unsupportedGate (.cz 2 3))) := by
    refine (stops _).mpr ⟨[.gate 0 (.h 1)], .gate 1 (.cz 0 1),
      [.gate 1 (.s 9), .rotation 1 ⟨[.Z]⟩ false], rfl, ?_, .unsupported (by decide) rfl⟩
    exact Op.clear_cons.mpr ⟨moves, Op.clear_nil⟩
  exact ⟨reach, by rw [answer, stopped]⟩

/-- An operator on `byteLimit` slots cannot be laid out, so that the walk does not get to a gate on
a qubit that does not exist. -/
theorem byproduct_without_room :
    let network : Network := ⟨[⟨[.h 0, .s 5], ⟨[.Z]⟩, false⟩]⟩
    let r := Register.start 1 byteLimit
    r.Reachable 1 byteLimit ∧
    Op.Stops 1 byteLimit r (Byproduct.opsBehind 0 [.s 5] []) (.qubitOutOfRange 0 (.s 5) 1) ∧
    Byproduct.ofGate? network 0 0 0 r = none := by
  intro network r
  have obstacle : (Op.gate 0 (.s 5)).Obstacle 1 byteLimit r (.qubitOutOfRange 0 (.s 5) 1) :=
    .outside (List.mem_singleton_self 5) (by decide)
  exact ⟨.start (by decide), ⟨[], .gate 0 (.s 5), [], rfl, Op.clear_nil, obstacle⟩, rfl⟩

end HadamardFree
