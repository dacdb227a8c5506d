import HadamardFree.Proofs.Conjugation

/-!
# The H gates of a network and their byproducts

A network read as one list of gates and rotations, and its H gates in the order
in which they are read:

* `Network.sites`: each H gate with its step, its qubit and the gates that follow
  it in its own piece;
* `HadamardSite.byproduct`: an X behind the H gate, carried through the gates up
  to a later rotation;
* `Op.flips`: the rotations that an operator meets and does not commute with,
  which `flips_ofSteps` lists by number.
-/

namespace HadamardFree

/-- A step on `n` qubits: its axis spans them, and its gates act on their
operators. -/
structure Step.Carries (n : Nat) (s : Step) : Prop where
  axis : s.axis.size = n
  piece : ∀ g ∈ s.piece, g.Carries n

/-- An H gate of a network: the step it stands in, its qubit, and the gates that
follow it in its own piece. -/
structure HadamardSite where
  step : Nat
  qubit : Nat
  tail : List Gate
  deriving DecidableEq, Repr

namespace HadamardSite

/-- The H gates of a piece of step `step`, or of what is left of it. -/
def ofPiece (step : Nat) : List Gate → List HadamardSite
  | [] => []
  | .h q :: tail => ⟨step, q, tail⟩ :: ofPiece step tail
  | _ :: tail => ofPiece step tail

/-- The H gates of whole steps, the first of which has number `step`. -/
def ofSteps (step : Nat) : List Step → List HadamardSite
  | [] => []
  | s :: later => ofPiece step s.piece ++ ofSteps (step + 1) later

theorem mem_ofPiece {step : Nat} {piece : List Gate} {site : HadamardSite}
    (h : site ∈ ofPiece step piece) :
    site.step = step ∧ ∃ before, piece = before ++ .h site.qubit :: site.tail := by
  induction piece with
  | nil => cases h
  | cons g piece ih =>
    have later : site ∈ ofPiece step piece →
        site.step = step ∧ ∃ before, g :: piece = before ++ .h site.qubit :: site.tail := by
      intro h
      obtain ⟨own, before, split⟩ := ih h
      exact ⟨own, g :: before, congrArg (g :: ·) split⟩
    cases g with
    | h q =>
      rcases List.mem_cons.mp h with rfl | h
      · exact ⟨rfl, [], rfl⟩
      · exact later h
    | s | cx | cz | meas => exact later h

/-- Each H gate stands in the piece of its step, before its tail. -/
theorem mem_ofSteps {step : Nat} {steps : List Step} {site : HadamardSite}
    (h : site ∈ ofSteps step steps) :
    ∃ k s before, site.step = step + k ∧ steps[k]? = some s ∧
      s.piece = before ++ .h site.qubit :: site.tail := by
  induction steps generalizing step with
  | nil => cases h
  | cons s steps ih =>
    rcases List.mem_append.mp h with own | later
    · obtain ⟨number, before, split⟩ := mem_ofPiece own
      exact ⟨0, s, before, number, rfl, split⟩
    · obtain ⟨k, s', before, number, found, split⟩ := ih later
      refine ⟨k + 1, s', before, ?_, found, split⟩
      omega

/-- The gates of the network behind the H gate, up to and including the piece of
step `k`. -/
def gatesUntil (network : Network) (k : Nat) (site : HadamardSite) : List Gate :=
  site.tail ++ ((network.steps.take (k + 1)).drop (site.step + 1)).flatMap Step.piece

/-- The X behind the H gate on `n` qubits, as it reaches the rotation of step
`k`. -/
def byproduct (network : Network) (n k : Nat) (site : HadamardSite) : Pauli :=
  (Pauli.single n site.qubit .X).through (site.gatesUntil network k)

end HadamardSite

namespace Network

/-- The H gates in reading order. -/
def sites (network : Network) : List HadamardSite :=
  HadamardSite.ofSteps 0 network.steps

/-- Whether the rotation of step `k` does not commute with `p`. -/
def clashesAt (network : Network) (k : Nat) (p : Pauli) : Bool :=
  (network.get? k).any fun s => !s.axis.commutes p

theorem lt_size_of_clashesAt {network : Network} {k : Nat} {p : Pauli}
    (h : network.clashesAt k p = true) : k < network.size := by
  apply Nat.lt_of_not_le
  intro outside
  rw [clashesAt, get?, List.getElem?_eq_none outside] at h
  cases h

end Network

/-! ## Networks as one list -/

/-- A gate or a rotation of a network, with the step it belongs to. -/
inductive Op where
  | gate (step : Nat) (g : Gate)
  | rotation (step : Nat) (axis : Pauli) (sign : Bool)
  deriving DecidableEq, Repr

namespace Op

def ofStep (step : Nat) (s : Step) : List Op :=
  s.piece.map (gate step) ++ [rotation step s.axis s.sign]

/-- The gates and rotations of whole steps, the first of which has number
`step`. -/
def ofSteps (step : Nat) : List Step → List Op
  | [] => []
  | s :: later => ofStep step s ++ ofSteps (step + 1) later

def gate? : Op → Option Gate
  | gate _ g => some g
  | rotation _ _ _ => none

def gates (ops : List Op) : List Gate :=
  ops.filterMap gate?

/-- The steps whose rotations do not commute with `p` when it reaches them. -/
def flips (p : Pauli) : List Op → List Nat
  | [] => []
  | gate _ g :: rest => flips (p.past g) rest
  | rotation k axis _ :: rest =>
    if axis.commutes p then flips p rest else k :: flips p rest

theorem gates_append (ops more : List Op) : gates (ops ++ more) = gates ops ++ gates more :=
  List.filterMap_append

theorem gates_map (step : Nat) (piece : List Gate) : gates (piece.map (gate step)) = piece := by
  induction piece with
  | nil => rfl
  | cons g piece ih => simpa [gates, gate?] using ih

theorem gates_ofStep (step : Nat) (s : Step) : gates (ofStep step s) = s.piece := by
  rw [ofStep, gates_append, gates_map]
  exact List.append_nil _

theorem gates_ofSteps (step : Nat) (steps : List Step) :
    gates (ofSteps step steps) = steps.flatMap Step.piece := by
  induction steps generalizing step with
  | nil => rfl
  | cons s steps ih => rw [ofSteps, gates_append, gates_ofStep, ih, List.flatMap_cons]

theorem flips_map_append {p : Pauli} {piece : List Gate} (h : ∀ g ∈ piece, g.Carries p.size)
    (step : Nat) (rest : List Op) :
    flips p (piece.map (gate step) ++ rest) = flips (p.through piece) rest := by
  induction piece generalizing p with
  | nil => rfl
  | cons g piece ih =>
    have first : g.Carries p.size := h g (List.mem_cons_self ..)
    rw [List.map_cons, List.cons_append, flips, Pauli.through_cons first]
    apply ih
    intro g' hg'
    rw [Pauli.size_past]
    exact h g' (List.mem_cons_of_mem _ hg')

theorem flips_ofStep_append {p : Pauli} {s : Step} (h : ∀ g ∈ s.piece, g.Carries p.size)
    (step : Nat) (rest : List Op) :
    flips p (ofStep step s ++ rest) =
      if s.axis.commutes (p.through s.piece) then flips (p.through s.piece) rest
      else step :: flips (p.through s.piece) rest := by
  rw [ofStep, List.append_assoc, flips_map_append h]
  rfl

/-- The flips of an operator that goes through whole steps: those whose rotation
it does not commute with once it has passed the piece. -/
theorem flips_ofSteps {p : Pauli} {steps : List Step}
    (h : ∀ s ∈ steps, ∀ g ∈ s.piece, g.Carries p.size) (step : Nat) :
    flips p (ofSteps step steps) = (List.range' step steps.length).filter fun k =>
      (steps[k - step]?).any fun s =>
        !s.axis.commutes (p.through ((steps.take (k - step + 1)).flatMap Step.piece)) := by
  induction steps generalizing p step with
  | nil => rfl
  | cons s steps ih =>
    have first : ∀ g ∈ s.piece, g.Carries p.size := h s (List.mem_cons_self ..)
    have rest : ∀ s' ∈ steps, ∀ g ∈ s'.piece, g.Carries (p.through s.piece).size := by
      intro s' hs' g hg
      rw [Pauli.size_through]
      exact h s' (List.mem_cons_of_mem _ hs') g hg
    have later : (List.range' (step + 1) steps.length).filter (fun k =>
          ((s :: steps)[k - step]?).any fun s' =>
            !s'.axis.commutes (p.through (((s :: steps).take (k - step + 1)).flatMap Step.piece))) =
        flips (p.through s.piece) (ofSteps (step + 1) steps) := by
      rw [ih rest]
      apply List.filter_congr
      intro k hk
      have shift : k - step = k - (step + 1) + 1 := by
        have := (List.mem_range'_1.mp hk).1
        omega
      rw [shift, List.getElem?_cons_succ, List.take_succ_cons, List.flatMap_cons,
        Pauli.through_append first]
    rw [ofSteps, flips_ofStep_append first, List.length_cons, List.range'_succ, List.filter_cons,
      later]
    cases commutes : s.axis.commutes (p.through s.piece) <;> simp [commutes]

end Op

/-- Behind its own step a byproduct is known from the later steps alone. -/
theorem HadamardSite.clashesAt_byproduct {network : Network} {n k : Nat} {site : HadamardSite}
    (h : ∀ g ∈ site.tail, g.Carries n) (hk : site.step < k) :
    network.clashesAt k (site.byproduct network n k) =
      ((network.steps.drop (site.step + 1))[k - (site.step + 1)]?).any fun s =>
        !s.axis.commutes (((Pauli.single n site.qubit .X).through site.tail).through
          (((network.steps.drop (site.step + 1)).take (k - (site.step + 1) + 1)).flatMap
            Step.piece)) := by
  have found : (network.steps.drop (site.step + 1))[k - (site.step + 1)]? = network.get? k := by
    rw [List.getElem?_drop, Network.get?]
    congr 1
    omega
  have taken : (network.steps.drop (site.step + 1)).take (k - (site.step + 1) + 1) =
      (network.steps.take (k + 1)).drop (site.step + 1) := by
    rw [List.drop_take]
    congr 1
    omega
  rw [Network.clashesAt, byproduct, gatesUntil, found, taken, Pauli.through_append (by simpa using h)]

end HadamardFree
