import HadamardFree.Proofs.Acceptance
import HadamardFree.Proofs.Determinism
import Mathlib.Data.List.GetD

/-!
# Networks that grow

Steps that are added behind a network need more slots, but what has been emitted before stays:
the new slots are idle in every axis, and an operator meets the old rotations before it meets a
new gate.

* `Emitted.Extends`: the same thing emitted, for a longer network;
* `Emission.extended`: a pass over more operations begins as the shorter pass does;
* `Emission.le_of_flips`: no gadget flips a rotation of an earlier step;
* `longer_network_extends_circuit`: the circuit of a longer network begins as that of the
  shorter one.
-/

namespace HadamardFree

/-! ## More slots -/

namespace Pauli

/-- The operator on `extra` more qubits, where it is the identity. -/
def pad (extra : Nat) (p : Pauli) : Pauli :=
  ⟨p.letters ++ List.replicate extra .I⟩

@[simp] theorem size_pad (extra : Nat) (p : Pauli) : (p.pad extra).size = p.size + extra := by
  simp [pad, size]

@[simp] theorem letter_pad (extra : Nat) (p : Pauli) (k : Nat) :
    (p.pad extra).letter k = p.letter k := by
  unfold letter pad
  by_cases hk : k < p.letters.length
  · rw [List.getD_append _ _ _ _ hk]
  · have outside : p.letters.length ≤ k := Nat.le_of_not_lt hk
    have idle : (List.replicate extra Letter.I).getD (k - p.letters.length) .I = .I := by
      simp only [List.getD_eq_getElem?_getD, List.getElem?_replicate]
      split <;> rfl
    rw [List.getD_append_right _ _ _ _ outside, idle, List.getD_eq_default _ _ outside]

end Pauli

def StreamOp.pad (extra : Nat) : StreamOp → StreamOp
  | .gate g => .gate g
  | .rotation r => .rotation { r with axis := r.axis.pad extra }

/-- More slots, none of them handed out. -/
def Register.widen (extra : Nat) (r : Register) : Register :=
  { r with width := r.width + extra }

theorem Placement.Lifts.pad {m : Placement} {width : Nat} {p q : Pauli} (h : m.Lifts width p q)
    (extra : Nat) : m.Lifts (width + extra) p (q.pad extra) := by
  refine ⟨h.size, ?_, ?_, ?_⟩
  · rw [Pauli.size_pad, h.wide]
  · intro k hk
    rw [Pauli.letter_pad, h.live k hk]
  · intro j hj
    rw [Pauli.letter_pad, h.idle j hj]

/-! ## More operations -/

namespace Op

/-- An operator meets the rotations of `ops` first, and only then what stands behind. -/
theorem flips_append (p : Pauli) (ops more : List Op) :
    flips p (ops ++ more) = flips p ops ++ flips ((gates ops).foldl Pauli.past p) more := by
  induction ops generalizing p with
  | nil => rfl
  | cons op ops ih =>
    cases op with
    | gate step g => exact ih (p.past g)
    | rotation step axis sign =>
      have gates : gates (.rotation step axis sign :: ops) = gates ops := rfl
      rw [List.cons_append, flips, flips, gates, ih]
      split <;> rfl

/-- Rotations that stand behind do not matter for the flips of earlier steps. -/
theorem mem_flips_append {more : List Op} {size k : Nat}
    (behind : ∀ j ∈ more.filterMap rotation?, size ≤ j) (hk : k < size) (p : Pauli) (ops : List Op) :
    k ∈ flips p (ops ++ more) ↔ k ∈ flips p ops := by
  have absent : k ∉ flips ((gates ops).foldl Pauli.past p) more := by
    intro met
    have := behind k (flips_subset _ _ k met)
    omega
  rw [flips_append, List.mem_append]
  exact or_iff_left absent

end Op

/-- The gadget of the same H gate in a longer network, which agrees about the first `size`
rotations. -/
structure Gadget.Extends (size : Nat) (g g' : Gadget) : Prop where
  same : g' = { g with flips := g'.flips, correction := g'.correction }
  flips : ∀ k, k < size → (k ∈ g'.flips ↔ k ∈ g.flips)

/-- What is emitted for the same operation of a longer network, on `extra` more slots. -/
inductive Emitted.Extends (size extra : Nat) : Emitted → Emitted → Prop
  | gate (g : Gate) : Extends size extra (.gate g) (.gate g)
  | gadget {g g' : Gadget} (grown : g.Extends size g') : Extends size extra (.gadget g) (.gadget g')
  | rotation {step : Nat} (known : step < size) (axis : Pauli) (sign : Bool) :
      Extends size extra (.rotation step axis sign) (.rotation step (axis.pad extra) sign)

namespace Emission

variable {n : Nat} {ops more : List Op} {r r₁ r₂ : Register} {es es' : List Emitted}

/-- A pass over more operations, on more slots, begins as the shorter pass does, and goes on
with what was added. -/
theorem extended {size extra : Nat} (h : Emission n ops r es r₁)
    (h' : Emission n (ops ++ more) (r.widen extra) es' r₂)
    (own : ∀ k ∈ ops.filterMap Op.rotation?, k < size)
    (behind : ∀ k ∈ more.filterMap Op.rotation?, size ≤ k) :
    ∃ front back r₃, es' = front ++ back ∧ List.Forall₂ (Emitted.Extends size extra) es front ∧
      Emission n more r₃ back r₂ := by
  induction h generalizing es' with
  | nil r => exact ⟨[], es', _, rfl, .nil, h'⟩
  | gate carries other rest ih =>
    cases h' with
    | gate _ _ rest' =>
      obtain ⟨front, back, r₃, rfl, grown, later⟩ := ih rest' own
      exact ⟨_ :: front, back, r₃, rfl, .cons (.gate _) grown, later⟩
    | hadamard => cases other
  | hadamard hq free flipped left rest ih =>
    cases h' with
    | gate _ other _ => cases other
    | hadamard _ _ flipped' left' rest' =>
      obtain ⟨front, back, r₃, rfl, grown, later⟩ := ih rest' own
      refine ⟨_ :: front, back, r₃, rfl, .cons (.gadget ⟨rfl, ?_⟩) grown, later⟩
      -- The X of the gadget goes on through `more`, so its correction and its later flips differ.
      intro k hk
      have met := Op.mem_flips_append behind hk
      exact (flipped' k).trans ((or_congr_right (met _ _)).trans (flipped k).symm)
  | @rotation step axis lifted sign ops r r' es lifts rest ih =>
    rw [Op.rotations_cons, List.forall_mem_cons] at own
    cases h' with
    | rotation lifts' rest' =>
      obtain ⟨front, back, r₃, rfl, grown, later⟩ := ih rest' own.2
      rw [lifts'.unique (lifts.pad extra)]
      exact ⟨_ :: front, back, r₃, rfl, .cons (.rotation own.1 ..) grown, later⟩

/-- No gadget flips a rotation of a step before the first. -/
theorem le_of_flips (h : Emission n ops r es r₁) {first : Nat} (numbered : Op.Numbered first ops) :
    ∀ g ∈ Emitted.gadgets es, ∀ k ∈ g.flips, first ≤ k := by
  induction h generalizing first with
  | nil r => exact fun g hg => by cases hg
  | gate carries other rest ih => exact ih numbered.2
  | @hadamard step q ops r r' es flips correction hq free flipped left rest ih =>
    obtain ⟨rfl, later⟩ := numbered
    refine List.forall_mem_cons.mpr ⟨?_, ih later⟩
    intro k hk
    rcases (flipped k).mp hk with own | met
    · exact own.ge
    · exact later.le_of_flips met
  | rotation lifts rest ih =>
    intro g hg k hk
    exact Nat.le_of_succ_le (ih numbered.2 g hg k hk)

end Emission

/-! ## Parts of a longer circuit -/

/-- Gadgets that flip later rotations only make no difference to an earlier one. -/
theorem Gadget.flipping_append_of_le {size step : Nat} {back : List Gadget}
    (behind : ∀ g ∈ back, ∀ k ∈ g.flips, size ≤ k) (known : step < size) (gadgets : List Gadget) :
    flipping (gadgets ++ back) step = flipping gadgets step := by
  have none : back.filter (fun g => g.flips.contains step) = [] := by
    rw [List.filter_eq_nil_iff]
    intro g hg
    rw [List.contains_iff_mem]
    intro hk
    have := behind g hg step hk
    omega
  rw [flipping, flipping, List.filter_append, none, List.append_nil]

namespace Emitted

variable {size extra : Nat} {es es' : List Emitted}

theorem gadgets_extend (h : List.Forall₂ (Emitted.Extends size extra) es es') :
    List.Forall₂ (Gadget.Extends size) (gadgets es) (gadgets es') := by
  induction h with
  | nil => exact .nil
  | cons first rest ih =>
    cases first with
    | gate | rotation => exact ih
    | gadget grown => exact .cons grown ih

/-- With all gadgets of the longer circuit, each operation is the old one on more slots: the
gadgets in `back` flip none of the first `size` rotations. -/
theorem map_toOp_extend (h : List.Forall₂ (Emitted.Extends size extra) es es')
    {gadgets gadgets' : List Gadget}
    (grown : List.Forall₂ (Gadget.Extends size) gadgets gadgets') {back : List Gadget}
    (behind : ∀ g ∈ back, ∀ k ∈ g.flips, size ≤ k) :
    (es.map (toOp gadgets)).map (StreamOp.pad extra) = es'.map (toOp (gadgets' ++ back)) := by
  rw [List.map_map]
  refine map_eq_of_forall₂ h fun e e' longer => ?_
  cases longer with
  | gate => rfl
  | gadget grown =>
    rw [grown.same]
    rfl
  | @rotation step known axis sign =>
    have same : Gadget.flipping gadgets' step = Gadget.flipping gadgets step := by
      apply Gadget.flipping_congr
      refine grown.imp fun g g' grown => ⟨?_, grown.flips step known⟩
      rw [grown.same]
    have later : Gadget.flipping (gadgets' ++ back) step = Gadget.flipping gadgets' step :=
      Gadget.flipping_append_of_le behind known gadgets'
    simp only [Function.comp_apply, toOp, StreamOp.pad, later, same]

end Emitted

/-- What does not look at flips and corrections is the same for the gadgets of the longer
circuit. -/
theorem Gadget.map_extends {α : Type} {size : Nat} {gadgets gadgets' : List Gadget}
    {f : Gadget → α} (h : List.Forall₂ (Gadget.Extends size) gadgets gadgets')
    (blind : ∀ g flips correction, f { g with flips := flips, correction := correction } = f g) :
    gadgets.map f = gadgets'.map f := by
  refine map_eq_of_forall₂ h fun g g' grown => ?_
  exact ((congrArg f grown.same).trans (blind g g'.flips g'.correction)).symm

/-- The longer circuit emits what the shorter one emits, and then more, which flips none of the
first `size` rotations. -/
def Unfolded.Extends (size extra : Nat) (u u' : Unfolded) : Prop :=
  ∃ front back, u'.emitted = front ++ back ∧
    List.Forall₂ (Emitted.Extends size extra) u.emitted front ∧
    ∀ g ∈ Emitted.gadgets back, ∀ k ∈ g.flips, size ≤ k

theorem Unfolded.gadgets_eq_append {u : Unfolded} {front back : List Emitted}
    (emitted : u.emitted = front ++ back) :
    u.gadgets = Emitted.gadgets front ++ Emitted.gadgets back := by
  unfold gadgets
  rw [emitted]
  exact List.filterMap_append

namespace Unfolded.Extends

variable {size extra : Nat} {u u' : Unfolded}

theorem gadgets (h : u.Extends size extra u') : ∃ front back, u'.gadgets = front ++ back ∧
    List.Forall₂ (Gadget.Extends size) u.gadgets front := by
  obtain ⟨front, back, emitted, grown, -⟩ := h
  exact ⟨_, _, gadgets_eq_append emitted, Emitted.gadgets_extend grown⟩

theorem beginning (h : u.Extends size extra u') : u.beginning <+: u'.beginning := by
  obtain ⟨front, back, gadgets, grown⟩ := h.gadgets
  refine ⟨Gadget.preparations back, ?_⟩
  have same : Gadget.preparations u.gadgets = Gadget.preparations front :=
    Gadget.map_extends grown fun _ _ _ => rfl
  unfold Unfolded.beginning
  rw [same, gadgets]
  exact List.map_append.symm

theorem ending (h : u.Extends size extra u') : u.ending <+: u'.ending := by
  obtain ⟨front, back, gadgets, grown⟩ := h.gadgets
  refine ⟨Gadget.readout back, ?_⟩
  have same : Gadget.readout u.gadgets = Gadget.readout front :=
    congrArg List.flatten (Gadget.map_extends grown fun _ _ _ => rfl)
  unfold Unfolded.ending
  rw [same, gadgets]
  exact List.flatMap_append.symm

theorem stream (h : u.Extends size extra u') :
    u.stream.map (StreamOp.pad extra) <+: u'.stream := by
  obtain ⟨front, back, emitted, grown, behind⟩ := h
  refine ⟨back.map (Emitted.toOp u'.gadgets), ?_⟩
  have same := Emitted.map_toOp_extend grown (Emitted.gadgets_extend grown) behind
  unfold Unfolded.stream
  rw [gadgets_eq_append emitted, emitted, List.map_append]
  exact congrArg (· ++ _) same

end Unfolded.Extends

/-- If more steps can be added behind a network, then it is unfolded itself. -/
theorem Network.unfolded_extends {network : Network} {later : List Step} {u' : Unfolded}
    (steps : network.steps ≠ []) (unfolds : Network.unfolded ⟨network.steps ++ later⟩ = .ok u') :
    ∃ u, network.unfolded = .ok u ∧ u.Extends network.size (Network.hCount ⟨later⟩) u' := by
  obtain ⟨n, width'⟩ := Network.exists_width unfolds
  have width : network.width? = some n := by
    rw [← width', Network.width?, Network.width?, List.head?_append_of_ne_nil _ steps]
  obtain ⟨carries, wide', r', -, emission'⟩ := Network.unfolded_emission unfolds width'
  obtain ⟨u, r, unfolded, wide, -, emission⟩ := network.exists_unfolded width
    fun s hs => carries s (List.mem_append_left _ hs)
  have slots : u'.width = u.width + Network.hCount ⟨later⟩ := by
    rw [wide', wide]
    simp [Network.hCount, Nat.add_assoc]
  have own : ∀ k ∈ (Op.ofSteps 0 network.steps).filterMap Op.rotation?, k < network.size := by
    intro k hk
    rw [Op.rotations_ofSteps, List.mem_range'_1, Nat.zero_add] at hk
    exact hk.2
  have behind : ∀ k ∈ (Op.ofSteps network.size later).filterMap Op.rotation?,
      network.size ≤ k := by
    intro k hk
    rw [Op.rotations_ofSteps, List.mem_range'_1] at hk
    exact hk.1
  rw [Op.ofSteps_append, Nat.zero_add, slots] at emission'
  obtain ⟨front, back, r₃, emitted, grown, rest⟩ := emission.extended emission' own behind
  exact ⟨u, unfolded, front, back, emitted, grown,
    rest.le_of_flips (Op.numbered_ofSteps network.size later)⟩

/-- **A longer network changes nothing that was emitted before.** If more steps can be added
behind a network, then the network itself is unfolded; its preparations and its readout are the
first ones of the longer circuit, and its stream is the beginning of the longer stream, once
every axis is the identity on one more slot for each H gate that was added. -/
theorem longer_network_extends_circuit {network : Network} {later : List Step} {u' : Unfolded}
    (steps : network.steps ≠ []) (unfolds : Network.unfolded ⟨network.steps ++ later⟩ = .ok u') :
    ∃ u, network.unfolded = .ok u ∧ u.beginning <+: u'.beginning ∧ u.ending <+: u'.ending ∧
      u.stream.map (StreamOp.pad (Network.hCount ⟨later⟩)) <+: u'.stream := by
  obtain ⟨u, unfolded, grown⟩ := Network.unfolded_extends steps unfolds
  exact ⟨u, unfolded, grown.beginning, grown.ending, grown.stream⟩

/-- An H gate and a CX gate are added. The X of the first gadget goes on to the added rotation,
and the axis before is padded by one letter. -/
theorem longer_network_of_cx_and_hadamard :
    let network : Network := ⟨[⟨[.h 0], ⟨[.Z, .I]⟩, false⟩]⟩
    let later : List Step := [⟨[.cx 0 1, .h 0], ⟨[.Z, .Z]⟩, true⟩]
    ∃ u u', network.unfolded = .ok u ∧ Network.unfolded ⟨network.steps ++ later⟩ = .ok u' ∧
      u.beginning <+: u'.beginning ∧ u.ending <+: u'.ending ∧
      u.stream.map (StreamOp.pad 1) <+: u'.stream ∧
      u.stream = [.gate (.cz 0 2), .rotation ⟨⟨[.I, .I, .Z]⟩, [0], false⟩] ∧
      u'.stream = [.gate (.cz 0 2), .rotation ⟨⟨[.I, .I, .Z, .I]⟩, [0], false⟩,
        .gate (.cx 2 1), .gate (.cz 2 3), .rotation ⟨⟨[.I, .Z, .I, .Z]⟩, [0, 1], true⟩] := by
  intro network later
  obtain ⟨u', unfolds⟩ : ∃ u', Network.unfolded ⟨network.steps ++ later⟩ = .ok u' := ⟨_, rfl⟩
  obtain ⟨u, unfolded, beginning, ending, stream⟩ :=
    longer_network_extends_circuit (by decide) unfolds
  refine ⟨u, u', unfolded, unfolds, beginning, ending, stream, ?_⟩
  cases unfolded
  cases unfolds
  exact ⟨by decide, by decide⟩

end HadamardFree
