import HadamardFree.Gadget.Byproduct
import HadamardFree.Proofs.Sites
import HadamardFree.Proofs.Slots

/-!
# Byproducts on the register

A byproduct travels on the slots of the register, with a placement that changes
at every H gate. What it does there is what an operator on the qubits does under
plain conjugation:

* `Front.passGate_eq`, `Front.passPiece_eq`: one gate, and a list of gates, keep
  the operator on the register lifted from the one on the qubits;
* `Byproduct.follow_eq`: the flips and the correction of a whole walk;
* `propagation_refines_conjugation`: the same for every register that can come
  up, with the flips listed by step.
-/

namespace HadamardFree

namespace Register

/-- The register behind a gate: an H gate moves its qubit. -/
def after (r : Register) : Gate → Register
  | .h k => r.moved k
  | _ => r

@[simp] theorem size_after (r : Register) (g : Gate) : (r.after g).size = r.size := by
  cases g <;> simp [after]

@[simp] theorem width_after (r : Register) (g : Gate) : (r.after g).width = r.width := by
  cases g <;> rfl

theorem allocated_after (r : Register) (g : Gate) :
    (r.after g).allocated = r.allocated + if g.isH then 1 else 0 := by
  cases g <;> rfl

theorem Sound.after {r : Register} {retired : List Nat} (h : r.Sound retired) {g : Gate}
    (carries : g.Carries r.size) (room : r.allocated + (if g.isH then 1 else 0) ≤ r.width) :
    ∃ retired', (r.after g).Sound retired' := by
  cases g with
  | h k =>
    have hk : k < r.size := by simpa [Gate.fits, Gate.qubits] using carries.2
    exact ⟨_, h.moved hk room⟩
  | s | cx | cz | meas => exact ⟨retired, h⟩

@[simp] theorem size_foldl_after (r : Register) (gates : List Gate) :
    (gates.foldl after r).size = r.size := by
  induction gates generalizing r with
  | nil => rfl
  | cons g gates ih => simpa using ih (r.after g)

@[simp] theorem width_foldl_after (r : Register) (gates : List Gate) :
    (gates.foldl after r).width = r.width := by
  induction gates generalizing r with
  | nil => rfl
  | cons g gates ih => simpa using ih (r.after g)

theorem allocated_foldl_after (r : Register) (gates : List Gate) :
    (gates.foldl after r).allocated = r.allocated + gates.countP Gate.isH := by
  induction gates generalizing r with
  | nil => rfl
  | cons g gates ih =>
    rw [List.foldl_cons, ih, allocated_after, List.countP_cons]
    omega

theorem Sound.foldl_after {r : Register} {retired : List Nat} (h : r.Sound retired)
    {gates : List Gate} (carries : ∀ g ∈ gates, g.Carries r.size)
    (room : r.allocated + gates.countP Gate.isH ≤ r.width) :
    ∃ retired', (gates.foldl Register.after r).Sound retired' := by
  induction gates generalizing r retired with
  | nil => exact ⟨retired, h⟩
  | cons g gates ih =>
    rw [List.countP_cons] at room
    obtain ⟨retired', sound⟩ := h.after (carries g (List.mem_cons_self ..)) (by omega)
    apply ih sound
    · intro g' hg'
      rw [size_after]
      exact carries g' (List.mem_cons_of_mem _ hg')
    · rw [allocated_after, width_after]
      omega

theorem placeGate_h {r : Register} {k : Nat} (hk : k < r.size) (free : r.allocated < r.width)
    (step : Nat) :
    r.placeGate step (.h k) = .ok (.moved ⟨k, r.placement.slot k, r.allocated⟩, r.moved k) := by
  simp [placeGate, place, Gate.fits, Gate.qubits, hk, moveQubit_eq hk free, Except.map]

theorem placeGate_of_not_isH {r : Register} {g : Gate} (fits : g.fits r.size = true)
    (other : g.isH = false) (step : Nat) :
    r.placeGate step g = .ok (.gate (g.rename r.placement.slot), r) := by
  cases g with
  | h k => cases other
  | s | cx | cz | meas => simp [placeGate, place, fits]

theorem Sound.placeAxis {r : Register} {retired : List Nat} (h : r.Sound retired) {axis : Pauli}
    (size : axis.size = r.size) (step : Nat) :
    ∃ lifted, r.placeAxis step axis = .ok lifted ∧
      r.placement.Lifts r.width axis lifted := by
  obtain ⟨lifted, found, lifts⟩ :=
    Placement.exists_lifts h.slots_nodup (fun j hj => h.slot_lt hj) size
  refine ⟨lifted, ?_, lifts⟩
  have found' : r.lift? axis = some lifted := found
  rw [Register.placeAxis, found']

end Register

/-! ## One gate and many -/

namespace Front

variable {r : Register} {retired : List Nat} {p op : Pauli}

/-- A gate on the qubits takes the operator on the register with it, to the slots
that the qubits hold behind the gate. -/
theorem passGate_eq (sound : r.Sound retired) (lifts : r.placement.Lifts r.width p op) {g : Gate}
    (carries : g.Carries r.size) (room : r.allocated + (if g.isH then 1 else 0) ≤ r.width)
    (step : Nat) :
    ∃ op', passGate step ⟨op, r⟩ g = .ok ⟨op', r.after g⟩ ∧
      (r.after g).placement.Lifts r.width (p.past g) op' := by
  have distinct := sound.slots_nodup
  have inside : ∀ j ∈ r.placement.slots, j < r.width := fun j hj => sound.slot_lt hj
  have size : p.size = r.size := lifts.size
  have slotInside : ∀ k, k < r.size → r.placement.slot k < op.size := by
    intro k hk
    rw [lifts.wide]
    exact inside _ (Placement.slot_mem hk)
  cases g with
  | h k =>
    have hk : k < r.size := by simpa [Gate.fits, Gate.qubits] using carries.2
    have free : r.allocated < r.width := room
    have freshInside : r.allocated < op.size := by
      rw [lifts.wide]
      exact free
    have turned := lifts.modify distinct inside hk Letter.hadamard
    have carried := turned.move distinct inside hk sound.fresh_not_mem free
    refine ⟨_, ?_, by rw [Pauli.past_h (by omega)]; exact carried⟩
    rw [passGate, Register.placeGate_h hk free]
    simp [conjugate, Pauli.conjugateGate, slotInside k hk, Pauli.moveLetter, freshInside,
      Register.after, Except.mapError, bind, Except.bind, pure, Except.pure]
  | s k =>
    have hk : k < r.size := by simpa [Gate.fits, Gate.qubits] using carries.2
    refine ⟨_, ?_, by rw [Pauli.past_s (by omega)]; exact lifts.modify distinct inside hk _⟩
    rw [passGate, Register.placeGate_of_not_isH carries.2 rfl]
    simp [conjugate, Gate.rename, Pauli.conjugateGate, slotInside k hk, Register.after,
      Except.mapError, bind, Except.bind, pure, Except.pure]
  | cx c t =>
    obtain ⟨hc, ht⟩ : c < r.size ∧ t < r.size := by simpa [Gate.fits, Gate.qubits] using carries.2
    refine ⟨_, ?_, by
      rw [Pauli.past_cx (by omega) (by omega)]
      exact lifts.conjugateCX distinct inside hc ht⟩
    rw [passGate, Register.placeGate_of_not_isH carries.2 rfl]
    simp [conjugate, Gate.rename, Pauli.conjugateGate, slotInside c hc, slotInside t ht,
      Register.after, Except.mapError, bind, Except.bind, pure, Except.pure]
  | cz a b => simp [Gate.Carries, Gate.isElementary] at carries
  | meas k id => simp [Gate.Carries, Gate.isElementary] at carries

theorem passPiece_eq (sound : r.Sound retired) (lifts : r.placement.Lifts r.width p op)
    {gates : List Gate} (carries : ∀ g ∈ gates, g.Carries r.size)
    (room : r.allocated + gates.countP Gate.isH ≤ r.width) (step : Nat) :
    ∃ op', passPiece step ⟨op, r⟩ gates = .ok ⟨op', gates.foldl Register.after r⟩ ∧
      (gates.foldl Register.after r).placement.Lifts r.width (p.through gates) op' := by
  induction gates generalizing r retired p op with
  | nil => exact ⟨op, rfl, lifts⟩
  | cons g gates ih =>
    have first : g.Carries r.size := carries g (List.mem_cons_self ..)
    rw [List.countP_cons] at room
    obtain ⟨op', passed, lifts'⟩ := passGate_eq sound lifts first (by omega) step
    obtain ⟨retired', sound'⟩ := sound.after first (by omega)
    have rest : ∀ g' ∈ gates, g'.Carries (r.after g).size := by
      intro g' hg'
      rw [Register.size_after]
      exact carries g' (List.mem_cons_of_mem _ hg')
    have room' : (r.after g).allocated + gates.countP Gate.isH ≤ (r.after g).width := by
      rw [Register.allocated_after, Register.width_after]
      omega
    obtain ⟨op'', passed', lifts''⟩ := ih sound' (by rwa [Register.width_after]) rest room'
    refine ⟨op'', ?_, ?_⟩
    · rw [passPiece, List.foldlM_cons, passed]
      exact passed'
    · have size : p.size = r.size := lifts.size
      rw [Pauli.through_cons (size ▸ first)]
      rwa [Register.width_after] at lifts''

/-- Through whole steps the operator flips the rotations that it does not commute
with as an operator on the qubits. -/
theorem passSteps_eq (sound : r.Sound retired) (lifts : r.placement.Lifts r.width p op)
    {later : List Step} (carries : ∀ s ∈ later, s.Carries r.size)
    (room : r.allocated + (later.flatMap Step.piece).countP Gate.isH ≤ r.width) (step : Nat) :
    ∃ correction, passSteps step ⟨op, r⟩ later =
        .ok ⟨Op.flips p (Op.ofSteps step later), correction⟩ ∧
      ((later.flatMap Step.piece).foldl Register.after r).placement.Lifts r.width
        (p.through (later.flatMap Step.piece)) correction := by
  induction later generalizing r retired p op step with
  | nil => exact ⟨op, rfl, lifts⟩
  | cons s later ih =>
    have first : s.Carries r.size := carries s (List.mem_cons_self ..)
    have size : p.size = r.size := lifts.size
    have pieceCarries : ∀ g ∈ s.piece, g.Carries p.size := by
      rw [size]
      exact first.piece
    rw [List.flatMap_cons, List.countP_append] at room
    obtain ⟨op', passed, lifts'⟩ := passPiece_eq sound lifts first.piece (by omega) step
    obtain ⟨retired', sound'⟩ := sound.foldl_after first.piece (by omega)
    have axisSize : s.axis.size = (s.piece.foldl Register.after r).size := by
      rw [Register.size_foldl_after]
      exact first.axis
    obtain ⟨axis, placed, axisLifts⟩ := sound'.placeAxis axisSize step
    have rest : ∀ s' ∈ later, s'.Carries (s.piece.foldl Register.after r).size := by
      intro s' hs'
      rw [Register.size_foldl_after]
      exact carries s' (List.mem_cons_of_mem _ hs')
    have room' : (s.piece.foldl Register.after r).allocated +
        (later.flatMap Step.piece).countP Gate.isH ≤ (s.piece.foldl Register.after r).width := by
      rw [Register.allocated_foldl_after, Register.width_foldl_after]
      omega
    obtain ⟨correction, walked, lifts''⟩ :=
      ih sound' (by rwa [Register.width_foldl_after]) rest room' (step + 1)
    refine ⟨correction, ?_, ?_⟩
    · rw [Register.width_foldl_after] at axisLifts
      have same : axis.commutes op' = s.axis.commutes (p.through s.piece) :=
        axisLifts.commutes_eq sound'.slots_nodup
          (fun j hj => Register.width_foldl_after r s.piece ▸ sound'.slot_lt hj) lifts'
      rw [passSteps, passed]
      simp only [bind, Except.bind, pure, Except.pure, placed, walked, Op.ofSteps,
        Op.flips_ofStep_append pieceCarries, same]
      split <;> rfl
    · rw [List.flatMap_cons, List.foldl_append, Pauli.through_append pieceCarries]
      rwa [Register.width_foldl_after] at lifts''

end Front

/-! ## A whole walk -/

theorem Register.Sound.lifts_single {r : Register} {retired : List Nat} (sound : r.Sound retired)
    {q : Nat} (hq : q < r.size) (a : Letter) :
    r.placement.Lifts r.width (.single r.size q a)
      (.single r.width (r.placement.slot q) a) := by
  have inside := sound.slot_lt (Placement.slot_mem hq)
  refine ⟨Pauli.size_single .., Pauli.size_single .., ?_, ?_⟩
  · intro k hk
    rw [Pauli.letter_single a inside, Pauli.letter_single a hq]
    by_cases same : k = q
    · simp [same]
    · have apart : r.placement.slot k ≠ r.placement.slot q :=
        fun e => same (Placement.slot_inj sound.slots_nodup hk hq e)
      simp [same, apart]
  · intro j hj
    have apart : j ≠ r.placement.slot q := fun e => hj (e ▸ Placement.slot_mem hq)
    rw [Pauli.letter_single a inside, if_neg apart]

/-- An X in the slot of qubit `q` is followed as an X on `q` is conjugated. -/
theorem Byproduct.follow_eq {r : Register} {retired : List Nat} (sound : r.Sound retired)
    {q : Nat} (start : Nat) (hq : q < r.size) {tail : List Gate} {later : List Step}
    (tailCarries : ∀ g ∈ tail, g.Carries r.size) (laterCarries : ∀ s ∈ later, s.Carries r.size)
    (room : r.allocated + (tail ++ later.flatMap Step.piece).countP Gate.isH ≤ r.width) :
    ∃ correction, follow start tail later (r.placement.slot q) r = .ok
        ⟨start :: Op.flips ((Pauli.single r.size q .X).through tail)
          (Op.ofSteps (start + 1) later), correction⟩ ∧
      ((tail ++ later.flatMap Step.piece).foldl Register.after r).placement.Lifts r.width
        ((Pauli.single r.size q .X).through (tail ++ later.flatMap Step.piece)) correction := by
  rw [List.countP_append] at room
  obtain ⟨op, passed, lifts⟩ :=
    Front.passPiece_eq sound (sound.lifts_single hq .X) tailCarries (by omega) start
  obtain ⟨retired', sound'⟩ := sound.foldl_after tailCarries (by omega)
  have rest : ∀ s ∈ later, s.Carries (tail.foldl Register.after r).size := by
    rw [Register.size_foldl_after]
    exact laterCarries
  have room' : (tail.foldl Register.after r).allocated +
      (later.flatMap Step.piece).countP Gate.isH ≤ (tail.foldl Register.after r).width := by
    rw [Register.allocated_foldl_after, Register.width_foldl_after]
    omega
  obtain ⟨correction, walked, lifts'⟩ :=
    Front.passSteps_eq sound' (by rwa [Register.width_foldl_after]) rest room' (start + 1)
  refine ⟨correction, ?_, ?_⟩
  · rw [follow, passed]
    simp only [bind, Except.bind, pure, Except.pure, walked]
  · have size : (Pauli.single r.size q .X).size = r.size := Pauli.size_single ..
    rw [List.foldl_append, Pauli.through_append (by rwa [size])]
    rwa [Register.width_foldl_after] at lifts'

/-! ## Every register that can come up -/

namespace Byproduct

variable {network : Network} {start offset target : Nat} {r : Register} {first : Step}

/-- The walk from behind a gate, where it has an answer. -/
theorem ofGate?_eq_follow (inside : target < r.width) (found : network.get? start = some first)
    (narrow : r.width < byteLimit) (near : offset + 1 < wordLimit) :
    ofGate? network start offset target r =
      some (follow start (first.piece.drop (offset + 1)) (network.steps.drop (start + 1)) target
        r) := by
  have letters : fitsLetters r.width = true := decide_eq_true narrow
  have word : fitsWord (offset + 1) = true := decide_eq_true near
  rw [ofGate?, if_pos inside, found]
  simp only [letters, word, Bool.and_self, if_true]

theorem ofGate?_eq_none (inside : target < r.width) (found : network.get? start = some first)
    (beyond : byteLimit ≤ r.width ∨ wordLimit ≤ offset + 1) :
    ofGate? network start offset target r = none := by
  have refused : (fitsLetters r.width && fitsWord (offset + 1)) = false := by
    rw [Bool.and_eq_false_iff]
    exact beyond.imp (fun wide => decide_eq_false (Nat.not_lt.mpr wide))
      fun far => decide_eq_false (Nat.not_lt.mpr far)
  rw [ofGate?, if_pos inside, found]
  simp only [refused, Bool.false_eq_true, if_false]

end Byproduct

/-- The qubits of the H gates, in order. -/
def Gate.hQubits : List Gate → List Nat
  | [] => []
  | .h k :: gates => k :: hQubits gates
  | _ :: gates => hQubits gates

/-- Moves the qubits one after the other. -/
def Register.moveAll (r : Register) : List Nat → Except Refusal Register
  | [] => .ok r
  | k :: ks => do
    let (_, r) ← r.moveQubit k
    r.moveAll ks

theorem Register.moveAll_hQubits {r : Register} {gates : List Gate}
    (carries : ∀ g ∈ gates, g.Carries r.size)
    (room : r.allocated + gates.countP Gate.isH ≤ r.width) :
    r.moveAll (Gate.hQubits gates) = .ok (gates.foldl after r) := by
  induction gates generalizing r with
  | nil => rfl
  | cons g gates ih =>
    have first := carries g (List.mem_cons_self ..)
    have rest : ∀ g' ∈ gates, g'.Carries (r.after g).size := by
      intro g' hg'
      rw [size_after]
      exact carries g' (List.mem_cons_of_mem _ hg')
    rw [List.countP_cons] at room
    have next := ih rest (by rw [allocated_after, width_after]; omega)
    cases g with
    | h k =>
      have hk : k < r.size := by simpa [Gate.fits, Gate.qubits] using first.2
      have free : r.allocated < r.width := by
        simp only [Gate.isH, if_true] at room
        omega
      rw [Gate.hQubits, moveAll, moveQubit_eq hk free]
      exact next
    | s | cx | cz | meas => exact next

/-- **Byproducts follow plain conjugation.** On any register that can come up, an
X in the slot of a qubit flips the rotations of exactly those later steps that do
not commute with the X carried through the gates before them, and its own step in
any case. What is left of it is the operator on the qubits, in the slots that the
qubits hold behind all moves; no other slot keeps a letter. There is no answer
where an operator on the whole register cannot be laid out, or the position behind
the gate is not a word. -/
theorem propagation_refines_conjugation {n width : Nat} {r : Register}
    (reach : r.Reachable n width) {q target : Nat} (placed : r.placement.get? q = some target)
    {network : Network} {start offset : Nat} {first : Step}
    (found : network.get? start = some first)
    (elementary : ∀ g ∈ first.piece.drop (offset + 1) ++
      (network.steps.drop (start + 1)).flatMap Step.piece,
      g.isElementary = true ∧ g.fits n = true)
    (room : (first.piece.drop (offset + 1) ++
      (network.steps.drop (start + 1)).flatMap Step.piece).countP Gate.isH ≤ width - r.allocated)
    (axes : ∀ s ∈ network.steps.drop (start + 1), s.axis.size = n) :
    let site : HadamardSite := ⟨start, q, first.piece.drop (offset + 1)⟩
    let gates := site.tail ++ (network.steps.drop (start + 1)).flatMap Step.piece
    (byteLimit ≤ width → Byproduct.ofGate? network start offset target r = none) ∧
    (wordLimit ≤ offset + 1 → Byproduct.ofGate? network start offset target r = none) ∧
    (width < byteLimit → offset + 1 < wordLimit → ∃ b final left,
      Byproduct.ofGate? network start offset target r = some (.ok b) ∧
      b.flips = start :: (List.range' (start + 1) (network.size - (start + 1))).filter
        (fun k => network.clashesAt k (site.byproduct network n k)) ∧
      r.moveAll (Gate.hQubits gates) = .ok final ∧
      (Pauli.single n q .X).conjugate gates = .ok left ∧
      final.lift? left = some b.correction ∧
      ∀ j, j ∉ final.placement.slots → b.correction.letter j = .I) := by
  intro site gates
  obtain ⟨rfl, rfl, retired, sound⟩ := reach.sound
  have hq : q < r.size := by
    by_contra outside
    rw [Placement.get?, List.getElem?_eq_none (Nat.le_of_not_lt outside)] at placed
    cases placed
  have slot : target = r.placement.slot q := by
    rw [Placement.get?_eq_slot hq] at placed
    exact (Option.some.inj placed).symm
  have inside : target < r.width := slot ▸ sound.slot_lt (Placement.slot_mem hq)
  refine ⟨fun wide => Byproduct.ofGate?_eq_none inside found (.inl wide),
    fun far => Byproduct.ofGate?_eq_none inside found (.inr far), fun narrow near => ?_⟩
  have roomAll : r.allocated + gates.countP Gate.isH ≤ r.width := by
    have := sound.room
    simp only [gates, site]
    omega
  have tailCarries : ∀ g ∈ site.tail, g.Carries r.size :=
    fun g hg => elementary g (List.mem_append_left _ hg)
  have laterCarries : ∀ s ∈ network.steps.drop (start + 1), s.Carries r.size := by
    intro s hs
    refine ⟨axes s hs, fun g hg => elementary g (List.mem_append_right _ ?_)⟩
    exact List.mem_flatMap.mpr ⟨s, hs, hg⟩
  obtain ⟨correction, followed, lifts⟩ :=
    Byproduct.follow_eq sound start hq tailCarries laterCarries roomAll
  obtain ⟨retired', sound'⟩ := sound.foldl_after elementary roomAll
  have single : (Pauli.single r.size q .X).size = r.size := Pauli.size_single ..
  have flips : Op.flips ((Pauli.single r.size q .X).through site.tail)
        (Op.ofSteps (start + 1) (network.steps.drop (start + 1))) =
      (List.range' (start + 1) (network.size - (start + 1))).filter
        fun k => network.clashesAt k (site.byproduct network r.size k) := by
    rw [Op.flips_ofSteps (by simpa using fun s hs => (laterCarries s hs).piece), List.length_drop]
    apply List.filter_congr
    intro k hk
    have later : start < k := (List.mem_range'_1.mp hk).1
    have met : network.clashesAt k (site.byproduct network r.size k) = _ :=
      HadamardSite.clashesAt_byproduct tailCarries later
    exact met.symm
  refine ⟨⟨_, correction⟩, _, _, ?_, rfl, Register.moveAll_hQubits elementary roomAll,
    Pauli.conjugate_eq_through (by rw [single]; exact elementary), ?_, lifts.idle⟩
  · rw [flips, ← slot] at followed
    rw [Byproduct.ofGate?_eq_follow inside found narrow near]
    exact congrArg some followed
  · apply (Placement.lift?_eq_some_iff sound'.slots_nodup fun j hj => sound'.slot_lt hj).mpr
    rwa [Register.width_foldl_after]

/-- Two qubits on four slots, the first of them moved once. The X flips the second
rotation, and a second H gate takes it to the last slot. -/
theorem propagation_through_second_hadamard :
    let first : Step := ⟨[.h 0], ⟨[.Z, .I]⟩, false⟩
    let network : Network := ⟨[first, ⟨[.cx 0 1, .h 0], ⟨[.Z, .Z]⟩, false⟩,
      ⟨[], ⟨[.X, .I]⟩, false⟩]⟩
    let r := (Register.start 2 4).moved 0
    let site : HadamardSite := ⟨0, 0, first.piece.drop 1⟩
    let gates := site.tail ++ (network.steps.drop 1).flatMap Step.piece
    r.Reachable 2 4 ∧ r.placement.get? 0 = some 2 ∧ gates.countP Gate.isH ≤ 4 - r.allocated ∧
    ∃ b final left,
      Byproduct.ofGate? network 0 0 2 r = some (.ok b) ∧
      b.flips = 0 :: (List.range' 1 (network.size - 1)).filter (fun k =>
        network.clashesAt k (site.byproduct network 2 k)) ∧
      r.moveAll (Gate.hQubits gates) = .ok final ∧
      (Pauli.single 2 0 .X).conjugate gates = .ok left ∧
      final.lift? left = some b.correction ∧
      ∀ j, j ∉ final.placement.slots → b.correction.letter j = .I := by
  intro first network r site gates
  have reach : r.Reachable 2 4 :=
    .move (.start (by decide)) (k := 0) (by decide) (Register.moveQubit_eq (by decide) (by decide))
  have placed : r.placement.get? 0 = some 2 := rfl
  have room : gates.countP Gate.isH ≤ 4 - r.allocated := by decide
  have found : network.get? 0 = some first := rfl
  have elementary : ∀ g ∈ gates, g.isElementary = true ∧ g.fits 2 = true := by decide
  have axes : ∀ s ∈ network.steps.drop 1, s.axis.size = 2 := by decide
  obtain ⟨-, -, answered⟩ :=
    propagation_refines_conjugation reach placed found elementary room axes
  exact ⟨reach, placed, room, answered (by decide) (by decide)⟩

/-- One qubit, and one step with one H gate, behind which there is nothing to pass.
Still there is no answer on `byteLimit` slots, and on three slots there is none from
behind the position with the highest number. -/
theorem propagation_without_room :
    let first : Step := ⟨[.h 0], ⟨[.Z]⟩, false⟩
    let network : Network := ⟨[first]⟩
    let wide := Register.start 1 byteLimit
    let narrow := Register.start 1 3
    (wide.Reachable 1 byteLimit ∧ wide.placement.get? 0 = some 0 ∧
      first.piece.drop 1 ++ (network.steps.drop 1).flatMap Step.piece = [] ∧
      ¬ ∃ b, Byproduct.ofGate? network 0 0 0 wide = some (.ok b)) ∧
    narrow.Reachable 1 3 ∧ narrow.placement.get? 0 = some 0 ∧
      first.piece.drop wordLimit ++ (network.steps.drop 1).flatMap Step.piece = [] ∧
      ¬ ∃ b, Byproduct.ofGate? network 0 (wordLimit - 1) 0 narrow = some (.ok b) := by
  intro first network wide narrow
  have found : network.get? 0 = some first := rfl
  refine ⟨⟨.start (by decide), rfl, rfl, ?_⟩, .start (by decide), rfl, ?_, ?_⟩
  · rintro ⟨b, answered⟩
    rw [Byproduct.ofGate?_eq_none (by decide) found (.inl (Nat.le_refl _))] at answered
    cases answered
  · have short : first.piece.drop wordLimit = [] := List.drop_eq_nil_of_le (by decide)
    rw [short]
    rfl
  · rintro ⟨b, answered⟩
    rw [Byproduct.ofGate?_eq_none (by decide) found (.inr (by decide))] at answered
    cases answered

end HadamardFree
