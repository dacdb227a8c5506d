import HadamardFree.Proofs.Flips
import HadamardFree.Proofs.Folding

/-!
# Gadgets teleport qubits

A retired slot will be found in one of the two states of the X basis. Contracted
with these states, the wave of the register is the wave of the logical qubits read
from their slots, where each H gate has left an X if its outcome is 1:

* `Wave.contract`: the retired slots contracted with their outcomes;
* `Op.branch`: the logical run under given outcomes;
* `Emission.teleports`: what is emitted for a network teleports its logical run.
-/

namespace HadamardFree

open Function (update)

namespace Wave

/-! ## Contraction -/

/-- Contracts slot `r` with a state of the X basis, up to a factor. -/
noncomputable def contractOne (φ : Wave) (r : Nat × Bool) : Wave :=
  fun u => φ (update u r.1 false) + sign r.2 * φ (update u r.1 true)

noncomputable def contract (retired : List (Nat × Bool)) (φ : Wave) : Wave :=
  retired.foldl contractOne φ

theorem contract_append (retired more : List (Nat × Bool)) (φ : Wave) :
    contract (retired ++ more) φ = contract more (contract retired φ) :=
  List.foldl_append

theorem contractOne_diagonal {r : Nat × Bool} {f : (Nat → Bool) → ℂ}
    (h : ∀ u b, f (update u r.1 b) = f u) (φ : Wave) :
    contractOne (diagonal f φ) r = diagonal f (contractOne φ r) := by
  funext u
  simp only [contractOne, diagonal, h]
  ring

theorem contract_diagonal {retired : List (Nat × Bool)} {f : (Nat → Bool) → ℂ}
    (h : ∀ r ∈ retired, ∀ u b, f (update u r.1 b) = f u) (φ : Wave) :
    contract retired (diagonal f φ) = diagonal f (contract retired φ) := by
  induction retired generalizing φ with
  | nil => rfl
  | cons r retired ih =>
    rw [contract, List.foldl_cons, contractOne_diagonal (h r (List.mem_cons_self ..))]
    exact ih (fun r' hr' => h r' (List.mem_cons_of_mem _ hr')) _

theorem contractOne_cx {r : Nat × Bool} {c t : Nat} (hc : c ≠ r.1) (ht : t ≠ r.1) (φ : Wave) :
    contractOne (cx c t φ) r = cx c t (contractOne φ r) := by
  funext u
  simp only [contractOne, cx, Function.update_of_ne hc, Function.update_of_ne ht,
    Function.update_comm (Ne.symm ht)]

theorem contract_cx {retired : List (Nat × Bool)} {c t : Nat}
    (h : ∀ r ∈ retired, c ≠ r.1 ∧ t ≠ r.1) (φ : Wave) :
    contract retired (cx c t φ) = cx c t (contract retired φ) := by
  induction retired generalizing φ with
  | nil => rfl
  | cons r retired ih =>
    have first := h r (List.mem_cons_self ..)
    rw [contract, List.foldl_cons, contractOne_cx first.1 first.2]
    exact ih (fun r' hr' => h r' (List.mem_cons_of_mem _ hr')) _

/-- Gates on other slots can be applied after the contraction. -/
theorem contract_gate {retired : List (Nat × Bool)} {g : Gate} (middle : g.Middle)
    (h : ∀ r ∈ retired, r.1 ∉ g.qubits) (φ : Wave) :
    contract retired (gate g φ) = gate g (contract retired φ) := by
  cases g with
  | h k => cases middle.1
  | s k =>
    apply contract_diagonal
    intro r hr u b
    have apart : k ≠ r.1 := fun same => h r hr (by simp [Gate.qubits, same])
    simp only [Function.update_of_ne apart]
  | cx c t =>
    have distinct : c ≠ t := fun same => middle.2.1 c (by rw [same])
    simp only [gate, distinct, if_false]
    apply contract_cx
    intro r hr
    constructor
    · exact fun same => h r hr (by simp [Gate.qubits, same])
    · exact fun same => h r hr (by simp [Gate.qubits, same])
  | cz a b =>
    apply contract_diagonal
    intro r hr u x
    have apart : a ≠ r.1 ∧ b ≠ r.1 := by
      constructor
      · exact fun same => h r hr (by simp [Gate.qubits, same])
      · exact fun same => h r hr (by simp [Gate.qubits, same])
    simp only [Function.update_of_ne apart.1, Function.update_of_ne apart.2]
  | meas k id => exact absurd rfl (middle.2.2 k id)

/-! ## Reading the qubits from their slots -/

/-- The wave of the logical qubits, read from their slots. -/
def placed (m : Placement) (ψ : Wave) : Wave :=
  fun u => ψ fun k => u (m.slot k)

theorem placed_update {m : Placement} (distinct : m.slots.Nodup) {ψ : Wave}
    (h : ψ.Local m.size) {k : Nat} (hk : k < m.size) (u : Nat → Bool) (b : Bool) :
    placed m ψ (update u (m.slot k) b) = ψ (update (fun j => u (m.slot j)) k b) := by
  apply h
  intro j hj
  by_cases same : j = k
  · subst same
    simp
  · have apart : m.slot j ≠ m.slot k := fun e => same (Placement.slot_inj distinct hj hk e)
    rw [Function.update_of_ne same, Function.update_of_ne apart]

/-- A gate on the slots of its qubits acts on the logical qubits. -/
theorem gate_placed {m : Placement} (distinct : m.slots.Nodup) {ψ : Wave} (h : ψ.Local m.size)
    {g : Gate} (fits : g.fits m.size = true) (middle : g.Middle) :
    gate (g.rename m.slot) (placed m ψ) = placed m (gate g ψ) := by
  have inside := Gate.fits_iff.mp fits
  cases g with
  | h k => cases middle.1
  | s k => rfl
  | cx c t =>
    have hc : c < m.size := inside c (by simp [Gate.qubits])
    have ht : t < m.size := inside t (by simp [Gate.qubits])
    have apart : c ≠ t := fun same => middle.2.1 c (by rw [same])
    have slots : m.slot c ≠ m.slot t := fun e => apart (Placement.slot_inj distinct hc ht e)
    funext u
    simp only [Gate.rename, gate, slots, apart, if_false, cx]
    exact placed_update distinct h ht u _
  | cz a b => rfl
  | meas k id => exact absurd rfl (middle.2.2 k id)

theorem rename_middle {m : Placement} (distinct : m.slots.Nodup) {g : Gate}
    (fits : g.fits m.size = true) (middle : g.Middle) : (g.rename m.slot).Middle := by
  have inside := Gate.fits_iff.mp fits
  cases g with
  | h k => cases middle.1
  | s k => exact ⟨rfl, by simp [Gate.rename], by simp [Gate.rename]⟩
  | cx c t =>
    refine ⟨rfl, ?_, by simp [Gate.rename]⟩
    intro k same
    simp only [Gate.rename, Gate.cx.injEq] at same
    have equal : c = t := Placement.slot_inj distinct (inside c (by simp [Gate.qubits]))
      (inside t (by simp [Gate.qubits])) (same.1.trans same.2.symm)
    exact middle.2.1 c (by rw [equal])
  | cz a b => exact ⟨rfl, by simp [Gate.rename], by simp [Gate.rename]⟩
  | meas k id => exact absurd rfl (middle.2.2 k id)

/-- The overlap with a lifted axis is that of the axis with the logical qubits. -/
theorem parity_lifts {m : Placement} {width : Nat} {p q : Pauli} (lifts : m.Lifts width p q)
    (distinct : m.slots.Nodup) (inside : ∀ j ∈ m.slots, j < width) (u : Nat → Bool) :
    (parity width fun k => u k && (q.letter k).z) =
      parity m.size fun k => u (m.slot k) && (p.letter k).z := by
  rw [parity_slots distinct inside]
  · apply parity_congr
    intro k hk
    exact congrArg (fun a => u (m.slot k) && Letter.z a) (lifts.live k hk)
  · intro k hk
    simp [lifts.idle k hk, Letter.z]

theorem rotate_placed {m : Placement} {width : Nat} {p q : Pauli} (lifts : m.Lifts width p q)
    (distinct : m.slots.Nodup) (inside : ∀ j ∈ m.slots, j < width) (angle : ℝ) (ψ : Wave) :
    rotate width (fun k => (q.letter k).z) angle (placed m ψ) =
      placed m (rotate m.size (fun k => (p.letter k).z) angle ψ) := by
  funext u
  simp only [rotate, diagonal, placed, parity_lifts lifts distinct inside]

/-! ## One step -/

section
variable {r : Register} {retired : List (Nat × Bool)} {c : ℂ} {φ ψ : Wave}

theorem teleport_gate (sound : r.Sound (retired.map Prod.fst)) (h : ψ.Local r.size) {g : Gate}
    (fits : g.fits r.size = true) (middle : g.Middle)
    (before : contract retired φ = c • placed r.placement ψ) :
    contract retired (gate (g.rename r.placement.slot) φ) = c • placed r.placement (gate g ψ) := by
  have apart : ∀ x ∈ retired, x.1 ∉ (g.rename r.placement.slot).qubits := by
    intro x hx used
    rw [Gate.qubits_rename] at used
    obtain ⟨k, hk, same⟩ := List.mem_map.mp used
    have live := Placement.slot_mem (m := r.placement) (Gate.fits_iff.mp fits k hk)
    exact sound.not_mem_retired (same ▸ live) (List.mem_map_of_mem hx)
  rw [contract_gate (rename_middle sound.slots_nodup fits middle) apart, before, gate_smul,
    gate_placed sound.slots_nodup h fits middle]

theorem teleport_rotation (sound : r.Sound (retired.map Prod.fst)) {axis lifted : Pauli}
    (lifts : r.placement.Lifts r.width axis lifted) (angle : ℝ)
    (before : contract retired φ = c • placed r.placement ψ) :
    contract retired (rotate r.width (fun k => (lifted.letter k).z) angle φ) =
      c • placed r.placement (rotate r.size (fun k => (axis.letter k).z) angle ψ) := by
  have inside : ∀ j ∈ r.placement.slots, j < r.width := fun j hj => sound.slot_lt hj
  have apart : ∀ x ∈ retired, ∀ (u : Nat → Bool) b,
      (parity r.width fun k => update u x.1 b k && (lifted.letter k).z) =
        parity r.width fun k => u k && (lifted.letter k).z := by
    intro x hx u b
    apply parity_congr
    intro k _
    by_cases same : k = x.1
    · have idle : k ∉ r.placement.slots := fun live =>
        sound.not_mem_retired live (same ▸ List.mem_map_of_mem hx)
      simp [lifts.idle k idle, Letter.z]
    · rw [Function.update_of_ne same]
  have passes : contract retired (rotate r.width (fun k => (lifted.letter k).z) angle φ) =
      rotate r.width (fun k => (lifted.letter k).z) angle (contract retired φ) :=
    contract_diagonal (fun x hx u b => congrArg (turn · angle) (apart x hx u b)) φ
  rw [passes, before, rotate, diagonal_smul]
  exact congrArg (c • ·) (rotate_placed lifts sound.slots_nodup inside angle ψ)

/-- A CZ gate to a fresh slot, with the old slot contracted, is an H gate on the qubit
and an X for the outcome. -/
theorem teleport_gadget (sound : r.Sound (retired.map Prod.fst)) (h : ψ.Local r.size) {q : Nat}
    (hq : q < r.size) (b : Bool)
    (before : contract retired φ = (c * Amplitude.sqrtHalf) • placed r.placement ψ) :
    contract (retired ++ [(r.placement.slot q, b)])
        (gate (.cz (r.placement.slot q) r.allocated) φ) =
      c • placed (r.moved q).placement (flipIf b q (hadamard q ψ)) := by
  have live : r.placement.slot q ∈ r.placement.slots := Placement.slot_mem hq
  have fresh : r.allocated ≠ r.placement.slot q :=
    fun same => sound.fresh_not_mem (same ▸ live)
  have middle : (Gate.cz (r.placement.slot q) r.allocated).Middle := ⟨rfl, by simp, by simp⟩
  have apart : ∀ x ∈ retired, x.1 ∉ (Gate.cz (r.placement.slot q) r.allocated).qubits := by
    intro x hx used
    have old : x.1 ∈ retired.map Prod.fst := List.mem_map_of_mem hx
    simp only [Gate.qubits, List.mem_cons, List.not_mem_nil, or_false] at used
    rcases used with same | same
    · exact sound.not_mem_retired live (same ▸ old)
    · exact Nat.lt_irrefl _ (same ▸ sound.mem_iff.mp (.inl old))
  have slots : ∀ (u : Nat → Bool) (x : Bool),
      update (fun j => u (r.placement.slot j)) q x =
        update (fun j => u ((r.moved q).placement.slot j)) q x := by
    intro u x
    funext j
    by_cases same : j = q
    · subst same
      simp
    · have kept : (r.moved q).placement.slot j = r.placement.slot j := by
        have := Placement.slot_assign r.placement q r.allocated j hq
        rwa [if_neg same] at this
      rw [Function.update_of_ne same, Function.update_of_ne same, kept]
  have target : (r.moved q).placement.slot q = r.allocated := by
    have := Placement.slot_assign r.placement q r.allocated q hq
    rwa [if_pos rfl] at this
  rw [contract_append, contract_gate middle apart, before]
  funext u
  simp only [contract, List.foldl_cons, List.foldl_nil, contractOne, gate, diagonal, Pi.smul_apply,
    smul_eq_mul, placed_update sound.slots_nodup h hq, slots, Function.update_self,
    Function.update_of_ne fresh]
  simp only [placed, flipIf, hadamard, Function.update_self, Function.update_idem, target, sign_xor]
  cases u r.allocated <;> cases b <;> simp <;> ring

end

end Wave

/-! ## Whole circuits -/

/-- Runs gates and rotations on `n` qubits, where the rotations turn by the given
angles. An X comes behind an H gate whose outcome is 1; outcomes that are not given
are 0. -/
noncomputable def Op.branch (n : Nat) (angle : Nat → ℝ) : List Op → List Bool → Wave → Wave
  | [], _, ψ => ψ
  | .gate _ (.h q) :: rest, outcomes, ψ =>
    branch n angle rest outcomes.tail (Wave.flipIf (outcomes.headD false) q (ψ.hadamard q))
  | .gate _ g :: rest, outcomes, ψ => branch n angle rest outcomes (ψ.gate g)
  | .rotation k axis _ :: rest, outcomes, ψ =>
    branch n angle rest outcomes (ψ.rotate n (fun j => (axis.letter j).z) (angle k))

theorem Op.branch_gate {g : Gate} (other : g.isH = false) (n : Nat) (angle : Nat → ℝ) (step : Nat)
    (rest : List Op) (outcomes : List Bool) (ψ : Wave) :
    branch n angle (.gate step g :: rest) outcomes ψ =
      branch n angle rest outcomes (ψ.gate g) := by
  cases g with
  | h k => cases other
  | s | cx | cz | meas => rfl

/-- **Teleportation.** On a register whose retired slots are contracted with their
outcomes, what is emitted for gates and rotations does to the qubits in their slots
what the gates and rotations do under the outcomes of their own H gates. -/
theorem Emission.teleports {n : Nat} {ops : List Op} {r r' : Register} {es : List Emitted}
    (emission : Emission n ops r es r') {retired : List (Nat × Bool)}
    (sound : r.Sound (retired.map Prod.fst)) (size : r.size = n)
    (distinct : ∀ g ∈ Op.gates ops, ∀ k, g ≠ .cx k k) {first count : Nat}
    (steps : ops.filterMap Op.rotation? = List.range' first count) {outcomes : List Bool}
    (enough : outcomes.length = (Op.gates ops).countP Gate.isH) (angle : Nat → ℝ)
    (gadgets : List Gadget) {φ ψ : Wave} (h : ψ.Local n)
    (before : φ.contract retired =
      (Amplitude.sqrtHalf : ℂ) ^ outcomes.length • ψ.placed r.placement) :
    (φ.stream r.width angle first (es.map (Emitted.toOp gadgets))).contract
        (retired ++ ((Emitted.gadgets es).map Gadget.retired).zip outcomes) =
      (Op.branch n angle ops outcomes ψ).placed r'.placement := by
  induction emission generalizing retired first count outcomes φ ψ with
  | nil r =>
    have none : outcomes = [] := List.eq_nil_of_length_eq_zero enough
    subst none
    simpa [Emitted.gadgets, Wave.stream, Op.branch] using before
  | @gate step g ops r r' es carries other rest ih =>
    subst size
    have gates : Op.gates (.gate step g :: ops) = g :: Op.gates ops := rfl
    rw [gates, List.countP_cons_of_neg (by simp [other])] at enough
    rw [gates, List.forall_mem_cons] at distinct
    have middle : g.Middle := by
      refine ⟨other, distinct.1, ?_⟩
      rintro k id rfl
      cases carries.1
    rw [Op.branch_gate other]
    exact ih sound rfl distinct.2 steps enough (h.gate carries.2)
      (Wave.teleport_gate sound h carries.2 middle before)
  | @hadamard step q ops r r' es flips correction hq free flipped left rest ih =>
    subst size
    have gates : Op.gates (.gate step (.h q) :: ops) = .h q :: Op.gates ops := rfl
    rw [gates, List.countP_cons_of_pos rfl] at enough
    rw [gates, List.forall_mem_cons] at distinct
    obtain ⟨b, outcomes, rfl⟩ : ∃ b bs, outcomes = b :: bs :=
      List.exists_cons_of_length_eq_add_one enough
    rw [List.length_cons, pow_succ] at before
    have moved : (r.moved q).newOutcome.2.Sound
        ((retired ++ [(r.placement.slot q, b)]).map Prod.fst) := by
      rw [List.map_append]
      exact (sound.moved hq free).newOutcome
    have after := ih moved (by simp) distinct.2 steps (Nat.succ.inj enough)
      ((h.hadamard hq).flipIf hq b) (Wave.teleport_gadget sound h hq b before)
    rw [List.append_assoc] at after
    exact after
  | @rotation step axis lifted sign ops r r' es lifts rest ih =>
    subst size
    have numbers : step :: ops.filterMap Op.rotation? = List.range' first count := steps
    obtain ⟨count, rfl⟩ : ∃ c, count = c + 1 := by
      cases count with
      | zero => cases numbers
      | succ c => exact ⟨c, rfl⟩
    rw [List.range'_succ, List.cons.injEq] at numbers
    obtain ⟨rfl, later⟩ := numbers
    exact ih sound rfl distinct later enough (h.rotate _ _)
      (Wave.teleport_rotation sound lifts (angle step) before)

end HadamardFree
