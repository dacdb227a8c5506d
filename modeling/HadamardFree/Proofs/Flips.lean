import HadamardFree.Proofs.Emission
import Mathlib.Data.List.Forall2

/-!
# Which measurements flip a rotation

The gadgets of a circuit stand for the H gates of the network one by one, in
reading order. From this follows, for each rotation, which outcomes turn it the
other way:

* `Emission.replaces`: each gadget has the flips and the correction of an X behind
  its H gate;
* `HadamardSite.mem_flips_rest`: the rotations that this X does not commute with;
* `mem_flips_iff`: the flips of a rotation.
-/

namespace HadamardFree

theorem forall₂_getElem? {α β : Type} {R : α → β → Prop} {as : List α} {bs : List β}
    (h : List.Forall₂ R as bs) {m : Nat} {a : α} (ha : as[m]? = some a) :
    ∃ b, bs[m]? = some b ∧ R a b := by
  induction h generalizing m with
  | nil => cases ha
  | @cons a' b' as bs first rest ih =>
    cases m with
    | zero =>
      cases ha
      exact ⟨b', rfl, first⟩
    | succ m => exact ih ha

/-- An H gate of a list of gates and rotations, with what follows it there. -/
structure Hadamard where
  step : Nat
  qubit : Nat
  rest : List Op

namespace Hadamard

def ofOps : List Op → List Hadamard
  | [] => []
  | .gate step (.h q) :: rest => ⟨step, q, rest⟩ :: ofOps rest
  | _ :: rest => ofOps rest

/-- The steps whose rotations an X behind the gate does not commute with. -/
def flips (n : Nat) (h : Hadamard) : List Nat :=
  Op.flips (.single n h.qubit .X) h.rest

/-- What is left of an X behind the gate. -/
def left (n : Nat) (h : Hadamard) : Pauli :=
  (Pauli.single n h.qubit .X).through (Op.gates h.rest)

end Hadamard

/-- A gadget that stands for an H gate, when the qubits end up as in `m`. -/
structure Gadget.Replaces (n : Nat) (m : Placement) (width : Nat) (h : Hadamard) (g : Gadget) :
    Prop where
  flips : ∀ k, k ∈ g.flips ↔ k = h.step ∨ k ∈ h.flips n
  correction : m.Lifts width (h.left n) g.correction

theorem Emission.replaces {n : Nat} {ops : List Op} {r r' : Register} {es : List Emitted}
    (h : Emission n ops r es r') :
    List.Forall₂ (Gadget.Replaces n r'.placement r.width) (Hadamard.ofOps ops)
      (Emitted.gadgets es) := by
  induction h with
  | nil r => exact .nil
  | @gate step g ops r r' es carries other rest ih =>
    cases g with
    | h k => cases other
    | s | cx | cz | meas => exact ih
  | @hadamard step q ops r r' es flips correction hq free flipped left rest ih =>
    refine .cons ⟨flipped, ?_⟩ ih
    rw [rest.placement_eq, Register.newOutcome, Register.placement_foldl_after]
    exact left
  | rotation lifts rest ih => exact ih

/-! ## Flips -/

/-- The gates and rotations of the network behind an H gate. -/
def HadamardSite.rest (network : Network) (site : HadamardSite) : List Op :=
  site.tail.map (.gate site.step) ++
    (((network.get? site.step).toList.map fun s => .rotation site.step s.axis s.sign) ++
      Op.ofSteps (site.step + 1) (network.steps.drop (site.step + 1)))

theorem Hadamard.ofOps_map_append (step : Nat) (piece : List Gate) (rest : List Op) :
    ofOps (piece.map (.gate step) ++ rest) =
      (HadamardSite.ofPiece step piece).map (fun site =>
        ⟨site.step, site.qubit, site.tail.map (.gate site.step) ++ rest⟩) ++ ofOps rest := by
  induction piece with
  | nil => rfl
  | cons g piece ih =>
    cases g with
    | h q =>
      have own : HadamardSite.ofPiece step (.h q :: piece) =
        ⟨step, q, piece⟩ :: HadamardSite.ofPiece step piece := rfl
      rw [own, List.map_cons, List.map_cons, List.cons_append, ofOps, ih]
      rfl
    | s | cx | cz | meas => exact ih

/-- The H gates of the one list are those of the pieces. -/
theorem Hadamard.ofOps_ofSteps (network : Network) (step : Nat) :
    ofOps (Op.ofSteps step (network.steps.drop step)) =
      (HadamardSite.ofSteps step (network.steps.drop step)).map fun site =>
        ⟨site.step, site.qubit, site.rest network⟩ := by
  generalize hsteps : network.steps.drop step = steps
  induction steps generalizing step with
  | nil => rfl
  | cons s steps ih =>
    have later : network.steps.drop (step + 1) = steps := by
      rw [← List.drop_drop, hsteps]
      rfl
    have found : network.get? step = some s := by
      rw [Network.get?, ← Nat.add_zero step, ← List.getElem?_drop, hsteps]
      rfl
    rw [Op.ofSteps, Op.ofStep, List.append_assoc, ofOps_map_append, HadamardSite.ofSteps,
      List.map_append]
    congr 1
    · apply List.map_congr_left
      intro site hsite
      have own := (HadamardSite.mem_ofPiece hsite).1
      simp [HadamardSite.rest, own, found, later]
    · exact ih (step + 1) later

theorem HadamardSite.byproduct_own (network : Network) (n : Nat) (site : HadamardSite) :
    site.byproduct network n site.step = (Pauli.single n site.qubit .X).through site.tail := by
  rw [byproduct, gatesUntil, List.drop_eq_nil_of_le (by rw [List.length_take]; omega)]
  simp

/-- The X behind an H gate meets its own rotation and those after it, and does not
commute with those that it clashes with there. -/
theorem HadamardSite.mem_flips_rest {network : Network} {n k : Nat} {site : HadamardSite}
    (carries : ∀ s ∈ network.steps, s.Carries n) (tailCarries : ∀ g ∈ site.tail, g.Carries n) :
    k ∈ Op.flips (.single n site.qubit .X) (site.rest network) ↔
      site.step ≤ k ∧ network.clashesAt k (site.byproduct network n k) = true := by
  have single : (Pauli.single n site.qubit .X).size = n := Pauli.size_single ..
  have later : k ∈ Op.flips ((Pauli.single n site.qubit .X).through site.tail)
        (Op.ofSteps (site.step + 1) (network.steps.drop (site.step + 1))) ↔
      site.step < k ∧ network.clashesAt k (site.byproduct network n k) = true := by
    rw [Op.flips_ofSteps (by simpa using fun s hs => (carries s (List.mem_of_mem_drop hs)).piece),
      List.mem_filter, List.mem_range'_1]
    constructor
    · rintro ⟨⟨after, -⟩, clash⟩
      rw [clashesAt_byproduct tailCarries after]
      exact ⟨after, clash⟩
    · rintro ⟨after, clash⟩
      have inside : k < network.steps.length := Network.lt_size_of_clashesAt clash
      rw [clashesAt_byproduct tailCarries after] at clash
      refine ⟨⟨after, ?_⟩, clash⟩
      rw [List.length_drop]
      omega
  have own : network.clashesAt site.step (site.byproduct network n site.step) =
      (network.get? site.step).any fun s =>
        !s.axis.commutes ((Pauli.single n site.qubit .X).through site.tail) := by
    rw [Network.clashesAt, byproduct_own]
  have split : site.step ≤ k ∧ network.clashesAt k (site.byproduct network n k) = true ↔
      (k = site.step ∧
        network.clashesAt site.step (site.byproduct network n site.step) = true) ∨
      (site.step < k ∧ network.clashesAt k (site.byproduct network n k) = true) := by
    constructor
    · rintro ⟨le, clash⟩
      rcases Nat.eq_or_lt_of_le le with rfl | after
      · exact .inl ⟨rfl, clash⟩
      · exact .inr ⟨after, clash⟩
    · rintro (⟨rfl, clash⟩ | ⟨after, clash⟩)
      · exact ⟨Nat.le_refl _, clash⟩
      · exact ⟨Nat.le_of_lt after, clash⟩
  rw [rest, Op.flips_map_append (by rwa [single]), split, own]
  cases found : network.get? site.step with
  | none => simpa using later
  | some s =>
    rw [Option.toList_some, List.map_singleton, List.singleton_append, Op.flips, Option.any_some]
    cases commutes : s.axis.commutes ((Pauli.single n site.qubit .X).through site.tail) with
    | true => simpa using later
    | false => simpa using or_congr_right later

theorem HadamardSite.tail_carries {n step : Nat} {steps : List Step} {site : HadamardSite}
    (carries : ∀ s ∈ steps, s.Carries n) (h : site ∈ ofSteps step steps) :
    ∀ g ∈ site.tail, g.Carries n := by
  obtain ⟨k, s, before, -, found, split⟩ := mem_ofSteps h
  intro g hg
  apply (carries s (List.mem_of_getElem? found)).piece
  rw [split]
  exact List.mem_append_right _ (List.mem_cons_of_mem _ hg)

def Op.rotation? : Op → Option Nat
  | .gate _ _ => none
  | .rotation step _ _ => some step

theorem Op.rotations_cons (step : Nat) (axis : Pauli) (sign : Bool) (ops : List Op) :
    (rotation step axis sign :: ops).filterMap rotation? = step :: ops.filterMap rotation? :=
  rfl

theorem Op.rotations_ofSteps (step : Nat) (steps : List Step) :
    (ofSteps step steps).filterMap rotation? = List.range' step steps.length := by
  induction steps generalizing step with
  | nil => rfl
  | cons s steps ih =>
    have gates : (s.piece.map (gate step)).filterMap rotation? = [] := by
      simp [List.filterMap_eq_nil_iff, rotation?]
    rw [ofSteps, ofStep, List.filterMap_append, List.filterMap_append, gates, ih,
      List.length_cons, List.range'_succ]
    rfl

/-- The rotations of the stream come in the order of the steps, each with the
flips of its own step. -/
theorem Emission.rotations {n : Nat} {ops : List Op} {r r' : Register} {es : List Emitted}
    (h : Emission n ops r es r') (gadgets : List Gadget) :
    (StreamOp.rotations (es.map (Emitted.toOp gadgets))).map Rotation.flips =
      (ops.filterMap Op.rotation?).map (Gadget.flipping gadgets) := by
  induction h with
  | nil r => rfl
  | gate carries other rest ih => exact ih
  | hadamard hq free flipped left rest ih => exact ih
  | rotation lifts rest ih => exact congrArg _ ih

theorem Gadget.id_of_numbered {gadgets : List Gadget} {count i : Nat} {g : Gadget}
    (numbered : gadgets.map Gadget.id = List.range' 0 count) (h : gadgets[i]? = some g) :
    g.id = i := by
  have listed : (gadgets.map Gadget.id)[i]? = some g.id := by rw [List.getElem?_map, h]; rfl
  rw [numbered, List.getElem?_eq_some_iff] at listed
  obtain ⟨_, same⟩ := listed
  simpa using same.symm

theorem Gadget.mem_flipping_iff {gadgets : List Gadget} {count m k : Nat}
    (numbered : gadgets.map Gadget.id = List.range' 0 count) :
    m ∈ flipping gadgets k ↔ ∃ g, gadgets[m]? = some g ∧ k ∈ g.flips := by
  simp only [flipping, List.mem_map, List.mem_filter, List.contains_iff_mem]
  constructor
  · rintro ⟨g, ⟨hg, hk⟩, rfl⟩
    obtain ⟨i, hi⟩ := List.getElem?_of_mem hg
    exact ⟨g, id_of_numbered numbered hi ▸ hi, hk⟩
  · rintro ⟨g, hg, hk⟩
    exact ⟨g, ⟨List.mem_of_getElem? hg, hk⟩, id_of_numbered numbered hg⟩

/-- **Which measurements flip a rotation.** The measurement of an H gate flips the
rotation of its own step, and of a later step exactly if the X behind the gate,
carried through all gates in between, does not commute with the axis there. -/
theorem mem_flips_iff {network : Network} {u : Unfolded} {n m k : Nat} {site : HadamardSite}
    (unfolds : network.unfolded = .ok u) (width : network.width? = some n)
    (number : network.sites[m]? = some site) (hk : k < network.size) (le : site.step ≤ k) :
    ∃ rotation, (StreamOp.rotations u.stream)[k]? = some rotation ∧
      (m ∈ rotation.flips ↔
        site.step = k ∨ network.clashesAt k (site.byproduct network n k) = true) := by
  obtain ⟨carries, -, r, -, emission⟩ := network.unfolded_emission unfolds width
  have inside : k < network.steps.length := hk
  have flips : (StreamOp.rotations u.stream).map Rotation.flips =
      (List.range' 0 network.steps.length).map (Gadget.flipping u.gadgets) := by
    rw [← Op.rotations_ofSteps]
    exact emission.rotations u.gadgets
  have listed : ((StreamOp.rotations u.stream).map Rotation.flips)[k]? =
      some (Gadget.flipping u.gadgets k) := by
    rw [flips, List.getElem?_map, List.getElem?_range' inside]
    simp
  obtain ⟨rotation, found, same⟩ : ∃ rotation, (StreamOp.rotations u.stream)[k]? = some rotation ∧
      rotation.flips = Gadget.flipping u.gadgets k := by
    simpa [List.getElem?_map, Option.map_eq_some_iff] using listed
  have gates : Hadamard.ofOps (Op.ofSteps 0 network.steps) =
      network.sites.map fun site => ⟨site.step, site.qubit, site.rest network⟩ :=
    Hadamard.ofOps_ofSteps network 0
  have replaces := emission.replaces
  rw [gates, List.forall₂_map_left_iff] at replaces
  obtain ⟨g, hg, replaced⟩ := forall₂_getElem? replaces number
  have tailCarries := HadamardSite.tail_carries carries (List.mem_of_getElem? number)
  refine ⟨rotation, found, ?_⟩
  have numbered : u.gadgets.map Gadget.id = List.range' 0 _ := emission.numbered.1
  rw [same, Gadget.mem_flipping_iff numbered]
  have own : k ∈ g.flips ↔ site.step = k ∨
      network.clashesAt k (site.byproduct network n k) = true := by
    rw [replaced.flips, Hadamard.flips, HadamardSite.mem_flips_rest carries tailCarries, eq_comm]
    simp [le]
  rw [← own]
  constructor
  · rintro ⟨g', hg', hk'⟩
    cases hg.symm.trans hg'
    exact hk'
  · intro hk'
    exact ⟨g, hg, hk'⟩

/-- A CX gate takes the X of the first step to the second qubit, where it meets the
axis of the second step. -/
theorem mem_flips_behind_cx :
    let network : Network := ⟨[⟨[.h 0], ⟨[.Z, .I]⟩, false⟩, ⟨[.cx 0 1], ⟨[.I, .Z]⟩, false⟩]⟩
    let site : HadamardSite := ⟨0, 0, []⟩
    network.width? = some 2 ∧ network.sites[0]? = some site ∧
    network.clashesAt 1 (site.byproduct network 2 1) = true ∧
    ∃ u rotation, network.unfolded = .ok u ∧ (StreamOp.rotations u.stream)[1]? = some rotation ∧
      (0 ∈ rotation.flips ↔
        site.step = 1 ∨ network.clashesAt 1 (site.byproduct network 2 1) = true) := by
  intro network site
  have width : network.width? = some 2 := rfl
  have number : network.sites[0]? = some site := rfl
  obtain ⟨u, r, unfolds, -⟩ := network.exists_unfolded width
    (Network.fault?_eq_none_iff.mp rfl)
  obtain ⟨rotation, found, flips⟩ := mem_flips_iff unfolds width number
    (show 1 < network.size by decide) (Nat.zero_le 1)
  exact ⟨width, number, by decide, u, rotation, unfolds, found, flips⟩

/-- A measurement flips the rotation of its own step even where the X of its gadget
commutes with the axis. -/
theorem mem_flips_of_commuting_axis :
    let network : Network := ⟨[⟨[.h 0], ⟨[.I, .Z]⟩, false⟩]⟩
    let site : HadamardSite := ⟨0, 0, []⟩
    ∃ u rotation, network.unfolded = .ok u ∧ network.width? = some 2 ∧
      network.sites[0]? = some site ∧ (StreamOp.rotations u.stream)[0]? = some rotation ∧
      ¬ (0 ∈ rotation.flips ↔ network.clashesAt 0 (site.byproduct network 2 0) = true) :=
  ⟨_, _, rfl, rfl, rfl, rfl, by decide⟩

end HadamardFree
