import HadamardFree.Proofs.StreamRun

/-!
# Positions in a stream

What is known at one position of a stream: how many rotations lie before it, which slots
are retired, and what has become of an operator that entered earlier.

* `Pauli.replay`: how an operator goes through a stream;
* `Emission.Reached`, `Emission.reached`: the pass after any number of operations, and what
  operators on the register have become by then;
* `Op.Numbered`: the step of an operation is the number of rotations before it;
* `Unfolded.GadgetAt`, `Network.gadget_behind`: what stands behind the CZ gate of a gadget.
-/

namespace HadamardFree

/-! ## Operators on a stream -/

def StreamOp.cz? : StreamOp → Option (Nat × Nat)
  | .gate (.cz a b) => some (a, b)
  | _ => none

namespace Pauli

/-- Rotations leave an operator as it is. A CZ gate stands for an H gate on its first slot,
behind which the qubit lives in the second. -/
def replayOp (p : Pauli) : StreamOp → Except ConjugationError Pauli
  | .rotation _ => .ok p
  | .gate (.cz retired fresh) => do
    let turned ← p.conjugateGate (.h retired)
    turned.moveLetter retired fresh
  | .gate g => p.conjugateGate g

def replay (p : Pauli) (stream : List StreamOp) : Except ConjugationError Pauli :=
  stream.foldlM replayOp p

theorem replay_cons {p q : Pauli} {op : StreamOp} (passed : p.replayOp op = .ok q)
    (stream : List StreamOp) : p.replay (op :: stream) = q.replay stream := by
  rw [replay, List.foldlM_cons, passed]
  rfl

end Pauli

/-- What is emitted where a gate has been placed. -/
def Placed.emitted : Placed → Gate
  | .gate g => g
  | .moved m => .cz m.retired m.fresh

/-- The byproduct of a walk over the network goes through a placed gate as it goes through
what is emitted for it. -/
theorem Front.replayOp_of_conjugate {op : Pauli} {r : Register} {placed : Placed} {f : Front}
    (passed : conjugate op r placed = .ok f) :
    op.replayOp (.gate placed.emitted) = .ok f.operator := by
  cases placed with
  | gate g =>
    cases turned : op.conjugateGate g with
    | error e => simp [conjugate, turned, bind, Except.bind] at passed
    | ok q =>
      have own : f.operator = q := by
        simp only [conjugate, turned, bind, Except.bind, pure, Except.pure, Except.ok.injEq] at passed
        rw [← passed]
      rw [own]
      cases g with
      | cz a b => cases turned
      | h | s | cx | meas => exact turned
  | moved m =>
    simp only [conjugate, bind, Except.bind, pure, Except.pure] at passed
    rw [Placed.emitted, Pauli.replayOp]
    cases turned : op.conjugateGate (.h m.retired) with
    | error e => simp [turned] at passed
    | ok q =>
      rw [turned] at passed
      change q.moveLetter m.retired m.fresh = .ok f.operator
      cases moved : q.moveLetter m.retired m.fresh with
      | error e => simp [moved] at passed
      | ok q' =>
        simp only [moved, Except.ok.injEq] at passed
        rw [← passed]

/-- One gate of the network, on the stream. -/
theorem Front.replayOp_placed {r r' : Register} {retired : List Nat} {p op : Pauli} {g : Gate}
    {placed : Placed} (sound : r.Sound retired) (lifts : r.placement.Lifts r.width p op)
    (carries : g.Carries r.size) (room : r.allocated + (if g.isH then 1 else 0) ≤ r.width)
    (place : r.placeGate 0 g = .ok (placed, r')) :
    ∃ op', op.replayOp (.gate placed.emitted) = .ok op' ∧
      (r.after g).placement.Lifts r.width (p.past g) op' := by
  obtain ⟨op', passed, lifts'⟩ := passGate_eq sound lifts carries room 0
  refine ⟨op', ?_, lifts'⟩
  rw [passGate, place] at passed
  cases conjugated : conjugate op r' placed with
  | error e => simp [conjugated, Except.mapError] at passed
  | ok f =>
    simp only [conjugated, Except.mapError, Except.ok.injEq] at passed
    rw [replayOp_of_conjugate conjugated, passed]

/-! ## The pass after some operations -/

namespace Emission

variable {n : Nat} {ops : List Op} {r r' : Register} {es : List Emitted}

/-- The pass after its first `i` operations, which has come to the register `r₁`. The slots
retired so far are known, and so is what has become of every operator on the register. -/
structure Reached (n : Nat) (ops : List Op) (r : Register) (es : List Emitted) (r' : Register)
    (retired : List Nat) (gadgets : List Gadget) (i : Nat) (r₁ : Register) : Prop where
  rest : Emission n (ops.drop i) r₁ (es.drop i) r'
  sound : r₁.Sound (retired ++ (Emitted.gadgets (es.take i)).map Gadget.retired)
  size : r₁.size = n
  width : r₁.width = r.width
  rotations : (StreamOp.rotations ((es.take i).map (Emitted.toOp gadgets))).length =
    ((ops.take i).filterMap Op.rotation?).length
  replays : ∀ p op, r.placement.Lifts r.width p op → ∃ op',
    op.replay ((es.take i).map (Emitted.toOp gadgets)) = .ok op' ∧
      r₁.placement.Lifts r.width (p.through (Op.gates (ops.take i))) op'

theorem Reached.zero (h : Emission n ops r es r') {retired : List Nat} (sound : r.Sound retired)
    (size : r.size = n) (gadgets : List Gadget) : Reached n ops r es r' retired gadgets 0 r :=
  ⟨h, by simpa [Emitted.gadgets] using sound, size, rfl, rfl, fun _ op lifts => ⟨op, rfl, lifts⟩⟩

/-- The pass can be stopped after any number of operations. -/
theorem reached (h : Emission n ops r es r') {retired : List Nat} (sound : r.Sound retired)
    (size : r.size = n) (gadgets : List Gadget) (i : Nat) :
    ∃ r₁, Reached n ops r es r' retired gadgets i r₁ := by
  induction h generalizing retired i with
  | nil r =>
    cases i with
    | zero => exact ⟨r, .zero (.nil r) sound size gadgets⟩
    | succ i =>
      obtain ⟨rest, sound', size', width, rotations, replays⟩ :=
        Reached.zero (.nil r) sound size gadgets
      exact ⟨r, rest, sound', size', width, rotations, replays⟩
  | @gate step g ops r r' es carries other rest ih =>
    cases i with
    | zero => exact ⟨r, .zero (.gate carries other rest) sound size gadgets⟩
    | succ i =>
      obtain ⟨r₁, reached⟩ := ih sound size i
      subst size
      refine ⟨r₁, reached.rest, reached.sound, reached.size, reached.width, reached.rotations, ?_⟩
      intro p op lifts
      have stays : r.after g = r := by
        cases g with
        | h k => cases other
        | s | cx | cz | meas => rfl
      obtain ⟨op', passed, lifts'⟩ := Front.replayOp_placed sound lifts carries
        (by simpa [other] using sound.room) (Register.placeGate_of_not_isH carries.2 other 0)
      rw [stays] at lifts'
      obtain ⟨op'', passed', lifts''⟩ := reached.replays _ op' lifts'
      have size : p.size = r.size := lifts.size
      exact ⟨op'', (Pauli.replay_cons passed _).trans passed',
        (Pauli.through_cons (size ▸ carries) _).symm ▸ lifts''⟩
  | @hadamard step q ops r r' es flips correction hq free flipped left rest ih =>
    cases i with
    | zero => exact ⟨r, .zero (.hadamard hq free flipped left rest) sound size gadgets⟩
    | succ i =>
      have carries : (Gate.h q).Carries r.size :=
        ⟨rfl, by simpa [Gate.fits, Gate.qubits, size] using hq⟩
      obtain ⟨r₁, reached⟩ :=
        ih (sound.moved (size ▸ hq) free).newOutcome (by simpa using size) i
      subst size
      refine ⟨r₁, reached.rest, ?_, reached.size, reached.width, reached.rotations, ?_⟩
      · simpa [Emitted.gadgets, Emitted.gadget?] using reached.sound
      · intro p op lifts
        obtain ⟨op', passed, lifts'⟩ := Front.replayOp_placed sound lifts carries free
          (Register.placeGate_h hq free 0)
        obtain ⟨op'', passed', lifts''⟩ := reached.replays _ op' lifts'
        have size : p.size = r.size := lifts.size
        exact ⟨op'', (Pauli.replay_cons passed _).trans passed',
          (Pauli.through_cons (size ▸ carries) _).symm ▸ lifts''⟩
  | @rotation step axis lifted sign ops r r' es lifts rest ih =>
    cases i with
    | zero => exact ⟨r, .zero (.rotation lifts rest) sound size gadgets⟩
    | succ i =>
      obtain ⟨r₁, reached⟩ := ih sound size i
      exact ⟨r₁, reached.rest, reached.sound, reached.size, reached.width,
        congrArg (· + 1) reached.rotations, reached.replays⟩

/-- A gadget stands for an H gate, and the pass goes on behind it with the qubit in the
fresh slot. -/
theorem gadget_inv {g : Gadget} (h : Emission n ops r (.gadget g :: es) r') :
    ∃ rest, ops = .gate g.step (.h g.qubit) :: rest ∧ g.qubit < n ∧ r.allocated < r.width ∧
      g.retired = r.placement.slot g.qubit ∧ g.fresh = r.allocated ∧
      (∀ k, k ∈ g.flips ↔ k = g.step ∨ k ∈ Op.flips (.single n g.qubit .X) rest) ∧
      r'.placement.Lifts r.width ((Pauli.single n g.qubit .X).through (Op.gates rest))
        g.correction ∧
      Emission n rest (r.moved g.qubit).newOutcome.2 es r' := by
  cases h with
  | @hadamard step q ops r r' es flips correction hq free flipped left rest =>
    refine ⟨ops, rfl, hq, free, rfl, rfl, flipped, ?_, rest⟩
    rw [rest.placement_eq, Register.newOutcome, Register.placement_foldl_after]
    exact left

theorem rotation_inv {step : Nat} {lifted : Pauli} {sign : Bool}
    (h : Emission n ops r (.rotation step lifted sign :: es) r') :
    ∃ axis rest, ops = .rotation step axis sign :: rest ∧
      r.placement.Lifts r.width axis lifted := by
  cases h with
  | rotation lifts rest => exact ⟨_, _, rfl, lifts⟩

theorem nil_inv (h : Emission n ops r [] r') : ops = [] ∧ r = r' := by
  cases h with
  | nil r => exact ⟨rfl, rfl⟩

/-- The CZ gates of the stream are those of the gadgets. -/
theorem isSome_cz? (h : Emission n ops r es r') (gadgets : List Gadget) :
    ∀ e ∈ es, (e.toOp gadgets).cz?.isSome = e.gadget?.isSome := by
  induction h with
  | nil r => exact fun e he => by cases he
  | @gate step g ops r r' es carries other rest ih =>
    rw [List.forall_mem_cons]
    refine ⟨?_, ih⟩
    cases g with
    | cz a b => cases carries.1
    | h | s | cx | meas => rfl
  | hadamard hq free flipped left rest ih => exact List.forall_mem_cons.mpr ⟨rfl, ih⟩
  | rotation lifts rest ih => exact List.forall_mem_cons.mpr ⟨rfl, ih⟩

theorem map_step_gadgets (h : Emission n ops r es r') :
    (Emitted.gadgets es).map Gadget.step = (Hadamard.ofOps ops).map Hadamard.step := by
  induction h with
  | nil r => rfl
  | @gate step g ops r r' es carries other rest ih =>
    cases g with
    | h k => cases other
    | s | cx | cz | meas => exact ih
  | hadamard hq free flipped left rest ih => exact congrArg _ ih
  | rotation lifts rest ih => exact ih

end Emission

/-! ## Steps counted by rotations -/

namespace Op

/-- The first operations belong to step `k`, and each rotation is the last operation of
its step. -/
def Numbered : Nat → List Op → Prop
  | _, [] => True
  | k, .gate step _ :: rest => step = k ∧ Numbered k rest
  | k, .rotation step _ _ :: rest => step = k ∧ Numbered (k + 1) rest

theorem numbered_map_append {k : Nat} {rest : List Op} (h : Numbered k rest)
    (piece : List Gate) : Numbered k (piece.map (gate k) ++ rest) := by
  induction piece with
  | nil => exact h
  | cons g piece ih => exact ⟨rfl, ih⟩

theorem numbered_ofSteps (k : Nat) (steps : List Step) : Numbered k (ofSteps k steps) := by
  induction steps generalizing k with
  | nil => trivial
  | cons s steps ih =>
    rw [ofSteps, ofStep, List.append_assoc]
    apply numbered_map_append
    exact ⟨rfl, ih (k + 1)⟩

theorem Numbered.drop {k : Nat} {ops : List Op} (h : Numbered k ops) (i : Nat) :
    Numbered (k + ((ops.take i).filterMap rotation?).length) (ops.drop i) := by
  induction ops generalizing k i with
  | nil => simpa using h
  | cons op ops ih =>
    cases i with
    | zero => exact h
    | succ i =>
      cases op with
      | gate step g => exact ih h.2 i
      | rotation step axis sign =>
        have next := ih h.2 i
        rw [List.take_succ_cons, rotations_cons, List.length_cons, List.drop_succ_cons]
        rwa [Nat.add_right_comm, Nat.add_assoc] at next

theorem Numbered.rotations {k : Nat} {ops : List Op} (h : Numbered k ops) :
    ops.filterMap rotation? = List.range' k (ops.filterMap rotation?).length := by
  induction ops generalizing k with
  | nil => rfl
  | cons op ops ih =>
    cases op with
    | gate step g => exact ih h.2
    | rotation step axis sign =>
      obtain ⟨rfl, later⟩ := h
      rw [rotations_cons, List.length_cons, List.range'_succ, ← ih later]

theorem Numbered.le_of_flips {k j : Nat} {ops : List Op} (h : Numbered k ops) {p : Pauli}
    (met : j ∈ flips p ops) : k ≤ j := by
  have listed := flips_subset p ops j met
  rw [h.rotations, List.mem_range'_1] at listed
  exact listed.1

/-- An operator flips a rotation if the two do not commute when they meet. -/
theorem mem_flips_iff_of_getElem? {p : Pauli} {ops : List Op} {j step : Nat} {axis : Pauli}
    {sign : Bool} (carries : ∀ g ∈ gates ops, g.Carries p.size)
    (distinct : (ops.filterMap rotation?).Nodup)
    (found : ops[j]? = some (.rotation step axis sign)) :
    step ∈ flips p ops ↔ axis.commutes (p.through (gates (ops.take j))) = false := by
  induction ops generalizing p j with
  | nil => cases found
  | cons op ops ih =>
    cases op with
    | gate step' g =>
      have listed : gates (.gate step' g :: ops) = g :: gates ops := rfl
      rw [listed, List.forall_mem_cons] at carries
      cases j with
      | zero => cases found
      | succ j =>
        have through : p.through (gates ((Op.gate step' g :: ops).take (j + 1))) =
            (p.past g).through (gates (ops.take j)) := Pauli.through_cons carries.1 _
        rw [through]
        apply ih (p := p.past g) _ distinct found
        rw [Pauli.size_past]
        exact carries.2
    | rotation step' axis' sign' =>
      rw [rotations_cons, List.nodup_cons] at distinct
      have fresh : step' ∉ flips p ops := fun met => distinct.1 (flips_subset p ops _ met)
      cases j with
      | zero =>
        cases found
        rw [flips]
        split
        · rename_i commutes
          exact iff_of_false fresh (by simp [gates, commutes])
        · rename_i clash
          exact iff_of_true (List.mem_cons_self ..) (by simpa [gates] using clash)
      | succ j =>
        have other : step ≠ step' := by
          rintro rfl
          apply distinct.1
          exact List.mem_filterMap.mpr ⟨_, List.mem_of_getElem? found, rfl⟩
        have later : step ∈ flips p (.rotation step' axis' sign' :: ops) ↔ step ∈ flips p ops := by
          rw [flips]
          split
          · rfl
          · simp [other]
        rw [later]
        exact ih carries distinct.2 found

end Op

/-! ## Behind a gadget -/

/-- Entry `m` of a filtered list, in the list itself. -/
theorem exists_getElem?_of_filterMap {α β : Type} {f : α → Option β} {l : List α} {m : Nat} {b : β}
    (h : (l.filterMap f)[m]? = some b) :
    ∃ i a, l[i]? = some a ∧ f a = some b ∧ ((l.take i).filterMap f).length = m := by
  induction l generalizing m with
  | nil => cases h
  | cons a l ih =>
    cases own : f a with
    | none =>
      rw [List.filterMap_cons_none own] at h
      obtain ⟨i, a', found, same, count⟩ := ih h
      refine ⟨i + 1, a', found, same, ?_⟩
      rwa [List.take_succ_cons, List.filterMap_cons_none own]
    | some b' =>
      rw [List.filterMap_cons_some own] at h
      cases m with
      | zero =>
        cases h
        exact ⟨0, a, rfl, own, rfl⟩
      | succ m =>
        obtain ⟨i, a', found, same, count⟩ := ih h
        refine ⟨i + 1, a', found, same, ?_⟩
        rw [List.take_succ_cons, List.filterMap_cons_some own, List.length_cons, count]

/-- Entry `j` of a list that is kept stands behind those that were kept before it. -/
theorem getElem?_filterMap_take {α β : Type} {f : α → Option β} {l : List α} {j : Nat} {a : α} {b : β}
    (found : l[j]? = some a) (kept : f a = some b) :
    (l.filterMap f)[((l.take j).filterMap f).length]? = some b := by
  induction l generalizing j with
  | nil => cases found
  | cons a' l ih =>
    cases j with
    | zero =>
      cases found
      rw [List.filterMap_cons_some kept]
      rfl
    | succ j =>
      cases own : f a' with
      | none =>
        rw [List.take_succ_cons, List.filterMap_cons_none own, List.filterMap_cons_none own]
        exact ih found
      | some b' =>
        rw [List.take_succ_cons, List.filterMap_cons_some own, List.filterMap_cons_some own]
        exact ih found

/-- What is kept in front of a kept entry is less than what is kept in front of later ones. -/
theorem length_filterMap_take_lt {α β : Type} {f : α → Option β} {l : List α} {j i : Nat} {a : α}
    {b : β} (found : l[j]? = some a) (kept : f a = some b) (lt : j < i) :
    ((l.take j).filterMap f).length < ((l.take i).filterMap f).length := by
  have inside : (l.take i)[j]? = some a := by rw [List.getElem?_take_of_lt lt, found]
  have entry := getElem?_filterMap_take inside kept
  rw [List.take_take, Nat.min_eq_left (Nat.le_of_lt lt)] at entry
  exact (List.getElem?_eq_some_iff.mp entry).1

theorem drop_eq_cons_of_getElem? {α : Type} {l : List α} {i : Nat} {a : α} (h : l[i]? = some a) :
    l.drop i = a :: l.drop (i + 1) := by
  obtain ⟨inside, rfl⟩ := List.getElem?_eq_some_iff.mp h
  exact List.drop_eq_getElem_cons inside

/-- Operation `i` is the gadget `g`. Behind it the pass goes on from the register `r`, where
the qubit lives in the fresh slot and the old one is retired; `rest` is what is left of the
network. -/
structure Unfolded.GadgetAt (u : Unfolded) (n : Nat) (rest : List Op) (r r' : Register) (i : Nat)
    (g : Gadget) : Prop where
  gate : u.stream[i]? = some (.gate (.cz g.retired g.fresh))
  emission : Emission n rest r (u.emitted.drop (i + 1)) r'
  sound : ∃ retired, r.Sound retired ∧ g.retired ∈ retired
  size : r.size = n
  width : r.width = u.width
  qubit : g.qubit < n
  fresh : r.placement.slot g.qubit = g.fresh
  step : (StreamOp.rotations (u.stream.take (i + 1))).length = g.step
  numbered : Op.Numbered g.step rest
  carries : ∀ g ∈ Op.gates rest, g.Carries n
  flips : ∀ k, k ∈ g.flips ↔ k = g.step ∨ k ∈ Op.flips (.single n g.qubit .X) rest
  correction : r'.placement.Lifts u.width
    ((Pauli.single n g.qubit .X).through (Op.gates rest)) g.correction

/-- A gadget flips no rotation before its own step. -/
theorem Unfolded.GadgetAt.step_le {u : Unfolded} {n i k : Nat} {rest : List Op} {r r' : Register}
    {g : Gadget} (h : u.GadgetAt n rest r r' i g) (flipped : k ∈ g.flips) : g.step ≤ k := by
  rcases (h.flips k).mp flipped with own | later
  · exact own.ge
  · exact h.numbered.le_of_flips later

theorem Unfolded.length_corrections (u : Unfolded) : u.corrections.length = u.gadgets.length := by
  rw [corrections, Gadget.corrections, List.length_map]

namespace Network

variable {network : Network} {u : Unfolded}

theorem exists_width (unfolds : network.unfolded = .ok u) : ∃ n, network.width? = some n := by
  cases width : network.width? with
  | none => simp [unfolded, width] at unfolds
  | some n => exact ⟨n, rfl⟩

/-- Gadgets have the steps of the H gates they stand for. -/
theorem site_of_gadget (unfolds : network.unfolded = .ok u) {m : Nat} {g : Gadget}
    (number : u.gadgets[m]? = some g) :
    ∃ site, network.sites[m]? = some site ∧ site.step = g.step := by
  obtain ⟨n, width⟩ := exists_width unfolds
  obtain ⟨-, -, r', -, emission⟩ := network.unfolded_emission unfolds width
  have sites := Hadamard.ofOps_ofSteps network 0
  rw [List.drop_zero] at sites
  have steps : u.gadgets.map Gadget.step = network.sites.map HadamardSite.step := by
    rw [Unfolded.gadgets, ← Emitted.gadgets, emission.map_step_gadgets, sites, List.map_map]
    rfl
  have entry := congrArg (·[m]?) steps
  simp only [List.getElem?_map, number, Option.map_some] at entry
  exact Option.map_eq_some_iff.mp entry.symm

/-- Gadget number `m` of a circuit, behind `m` CZ gates. -/
theorem gadget_behind (unfolds : network.unfolded = .ok u) {m : Nat} {g : Gadget}
    (number : u.gadgets[m]? = some g) :
    ∃ n rest r r' i, ((u.stream.take i).filterMap StreamOp.cz?).length = m ∧
      u.GadgetAt n rest r r' i g := by
  obtain ⟨n, width⟩ := exists_width unfolds
  obtain ⟨-, wide, r', -, emission⟩ := network.unfolded_emission unfolds width
  have start : (Register.start n u.width).Sound [] := Register.start_sound (by omega)
  obtain ⟨i, e, here, own, count⟩ := exists_getElem?_of_filterMap number
  obtain rfl : e = .gadget g := by
    cases e with
    | gadget g' => exact congrArg _ (Option.some.inj own)
    | gate | rotation => cases own
  -- The pass is stopped in front of the gadget, which is then its next operation.
  obtain ⟨r₁, reached⟩ := emission.reached start (Register.size_start ..) u.gadgets i
  obtain ⟨rest, ops, hq, free, old, fresh, flips, correction, later⟩ :=
    Emission.gadget_inv (drop_eq_cons_of_getElem? here ▸ reached.rest)
  have numbered := (Op.numbered_ofSteps 0 network.steps).drop i
  rw [ops, Nat.zero_add] at numbered
  have before : u.stream.take i = (u.emitted.take i).map (Emitted.toOp u.gadgets) :=
    List.map_take.symm
  have gate : u.stream[i]? = some (.gate (.cz g.retired g.fresh)) := by
    rw [Unfolded.stream, List.getElem?_map, here]
    rfl
  have inside : g.qubit < r₁.placement.size := hq.trans_eq reached.size.symm
  have moved := (reached.sound.moved inside free).newOutcome
  refine ⟨n, rest, _, r', i, ?_, gate, later, ⟨_, moved, ?_⟩, ?_, reached.width, hq, ?_, ?_, ?_, ?_,
    flips, ?_⟩
  · rw [before, List.length_filterMap_eq_countP, List.countP_map, ← count,
      List.length_filterMap_eq_countP]
    apply List.countP_congr
    intro e he
    exact Bool.eq_iff_iff.mp (emission.isSome_cz? u.gadgets e (List.mem_of_mem_take he))
  · rw [old]
    exact List.mem_append_right _ (List.mem_singleton.mpr rfl)
  · rw [Register.size_newOutcome, Register.size_moved, reached.size]
  · have assigned := Placement.slot_assign r₁.placement g.qubit r₁.allocated g.qubit inside
    rw [if_pos rfl] at assigned
    exact assigned.trans fresh.symm
  · rw [List.take_add_one, gate, before, StreamOp.rotations, List.filterMap_append,
      List.length_append]
    exact reached.rotations.trans numbered.1.symm
  · rw [numbered.1]
    exact numbered.2
  · intro g' hg'
    apply gates_carry unfolds width
    apply ((List.drop_sublist i (Op.ofSteps 0 network.steps)).filterMap Op.gate?).subset
    rw [ops]
    exact List.mem_cons_of_mem _ hg'
  · rw [reached.width] at correction
    exact correction

/-- Rotation number `k` of the stream has the flips of step `k`. -/
theorem flips_of_rotation (unfolds : network.unfolded = .ok u) {k : Nat} {rotation : Rotation}
    (found : (StreamOp.rotations u.stream)[k]? = some rotation) :
    rotation.flips = Gadget.flipping u.gadgets k := by
  obtain ⟨n, width⟩ := exists_width unfolds
  obtain ⟨-, -, r', -, emission⟩ := network.unfolded_emission unfolds width
  have flips : (StreamOp.rotations u.stream).map Rotation.flips =
      (List.range' 0 network.steps.length).map (Gadget.flipping u.gadgets) := by
    rw [← Op.rotations_ofSteps]
    exact emission.rotations u.gadgets
  have entry := congrArg (·[k]?) flips
  simp only [List.getElem?_map, found, Option.map_some] at entry
  obtain ⟨k', listed, same⟩ := Option.map_eq_some_iff.mp entry.symm
  obtain ⟨inside, rfl⟩ := List.getElem?_eq_some_iff.mp listed
  rw [← same, List.getElem_range', Nat.zero_add, Nat.one_mul]

end Network

end HadamardFree
