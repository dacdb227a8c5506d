import HadamardFree.Proofs.Flips

/-!
# What is emitted is determined

The relation between a network and what is emitted for it leaves open only how the flips of a
gadget are listed, and nothing in a circuit depends on that.

* `Emission.agrees`: two passes over the same operations, from the same register, agree;
* `Unfolded.Agrees.stream_eq`, `Unfolded.Agrees.ending_eq` and the like: circuits that agree have
  the same parts.
-/

namespace HadamardFree

/-- The same gadget, up to how its flips are listed. -/
structure Gadget.Agrees (g g' : Gadget) : Prop where
  same : g' = { g with flips := g'.flips }
  flips : ∀ k, k ∈ g'.flips ↔ k ∈ g.flips

inductive Emitted.Agrees : Emitted → Emitted → Prop
  | gate (g : Gate) : Agrees (.gate g) (.gate g)
  | gadget {g g' : Gadget} (agrees : g.Agrees g') : Agrees (.gadget g) (.gadget g')
  | rotation (step : Nat) (axis : Pauli) (sign : Bool) :
      Agrees (.rotation step axis sign) (.rotation step axis sign)

theorem Emission.agrees {n : Nat} {ops : List Op} {r r₁ r₂ : Register} {es es' : List Emitted}
    (h : Emission n ops r es r₁) (h' : Emission n ops r es' r₂) :
    r₁ = r₂ ∧ List.Forall₂ Emitted.Agrees es es' := by
  induction h generalizing es' with
  | nil r =>
    cases h' with
    | nil => exact ⟨rfl, .nil⟩
  | gate carries other rest ih =>
    cases h' with
    | gate _ _ rest' =>
      obtain ⟨register, emitted⟩ := ih rest'
      exact ⟨register, .cons (.gate _) emitted⟩
    | hadamard => cases other
  | hadamard hq free flipped left rest ih =>
    cases h' with
    | gate _ other _ => cases other
    | hadamard _ _ flipped' left' rest' =>
      obtain ⟨register, emitted⟩ := ih rest'
      refine ⟨register, .cons (.gadget ⟨?_, ?_⟩) emitted⟩
      · rw [left.unique left']
      · intro k
        exact (flipped' k).trans (flipped k).symm
  | rotation lifts rest ih =>
    cases h' with
    | rotation lifts' rest' =>
      obtain ⟨register, emitted⟩ := ih rest'
      rw [lifts.unique lifts']
      exact ⟨register, .cons (.rotation ..) emitted⟩

/-! ## Parts of a circuit -/

theorem map_eq_of_forall₂ {α β γ : Type} {R : α → β → Prop} {as : List α} {bs : List β}
    (h : List.Forall₂ R as bs) {f : α → γ} {f' : β → γ} (each : ∀ a b, R a b → f a = f' b) :
    as.map f = bs.map f' := by
  rw [← List.forall₂_eq_eq_eq, List.forall₂_map_left_iff, List.forall₂_map_right_iff]
  exact h.imp each

theorem Emitted.gadgets_agree {es es' : List Emitted} (h : List.Forall₂ Emitted.Agrees es es') :
    List.Forall₂ Gadget.Agrees (gadgets es) (gadgets es') := by
  induction h with
  | nil => exact .nil
  | cons first rest ih =>
    cases first with
    | gate | rotation => exact ih
    | gadget agrees => exact .cons agrees ih

/-- Whether a rotation is flipped depends on the numbers of the gadgets and on whether they flip
it. -/
theorem Gadget.flipping_congr {gadgets gadgets' : List Gadget} {k : Nat}
    (h : List.Forall₂ (fun g g' => g'.id = g.id ∧ (k ∈ g'.flips ↔ k ∈ g.flips)) gadgets gadgets') :
    flipping gadgets' k = flipping gadgets k := by
  induction h with
  | nil => rfl
  | @cons g g' gadgets gadgets' first rest ih =>
    have contains : g'.flips.contains k = g.flips.contains k := by
      rw [Bool.eq_iff_iff, List.contains_iff_mem, List.contains_iff_mem, first.2]
    rw [flipping, flipping] at ih ⊢
    simp only [List.filter_cons, contains]
    split
    · rw [List.map_cons, List.map_cons, first.1, ih]
    · exact ih

theorem Gadget.flipping_agrees {gadgets gadgets' : List Gadget}
    (h : List.Forall₂ Gadget.Agrees gadgets gadgets') (k : Nat) :
    flipping gadgets' k = flipping gadgets k := by
  apply flipping_congr
  refine h.imp fun g g' agrees => ⟨?_, agrees.flips k⟩
  rw [agrees.same]

/-- What does not look at the flips is the same for gadgets that agree. -/
theorem Gadget.map_agrees {α : Type} {gadgets gadgets' : List Gadget} {f : Gadget → α}
    (h : List.Forall₂ Gadget.Agrees gadgets gadgets')
    (blind : ∀ g flips, f { g with flips := flips } = f g) : gadgets'.map f = gadgets.map f := by
  refine (map_eq_of_forall₂ h fun g g' agrees => ?_).symm
  exact ((congrArg f agrees.same).trans (blind g g'.flips)).symm

/-- Circuits that are equal up to how flips are listed. -/
structure Unfolded.Agrees (u u' : Unfolded) : Prop where
  width : u'.width = u.width
  emitted : List.Forall₂ Emitted.Agrees u.emitted u'.emitted
  layout : u'.layout = u.layout

namespace Unfolded.Agrees

variable {u u' : Unfolded}

theorem stream_eq (h : u.Agrees u') : u'.stream = u.stream := by
  have flipping := Gadget.flipping_agrees (Emitted.gadgets_agree h.emitted)
  refine (map_eq_of_forall₂ h.emitted fun e e' agrees => ?_).symm
  cases agrees with
  | gate => rfl
  | gadget agrees =>
    rw [agrees.same]
    rfl
  | rotation step axis sign =>
    have same : Gadget.flipping u'.gadgets step = Gadget.flipping u.gadgets step := flipping step
    rw [Emitted.toOp, Emitted.toOp, same]

theorem ending_eq (h : u.Agrees u') : u'.ending = u.ending := by
  have same := Gadget.map_agrees (f := fun g => [Gate.h g.retired, .meas g.retired g.id])
    (Emitted.gadgets_agree h.emitted) fun _ _ => rfl
  exact congrArg List.flatten same

theorem corrections_eq (h : u.Agrees u') : u'.corrections = u.corrections :=
  Gadget.map_agrees (Emitted.gadgets_agree h.emitted) fun _ _ => rfl

end Unfolded.Agrees

end HadamardFree
