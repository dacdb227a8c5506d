import HadamardFree.Proofs.Determinism
import HadamardFree.Proofs.Recovery

/-!
# The names of the qubits do not matter

If the qubits of a network are renamed, its circuit is the old one with the slots of the qubits
renamed in the same way. The slots above stay as they are.

* `Pauli.rename`, `Placement.rename`, `Network.rename` and the like: what a renaming does;
* `Pauli.rename_past`, `Op.flips_rename`: renamed operators go through renamed gates and flip the
  same rotations;
* `Emission.rename`: a renamed network emits what the network emits, renamed;
* `Network.unfolded_rename`: a renamed network unfolds to the renamed circuit;
* `renamed_network_unfolds`: the same part by part.
-/

namespace HadamardFree

/-- `σ` permutes the first `n` numbers and leaves the others alone. -/
def Renames (n : Nat) (σ : Equiv.Perm ℕ) : Prop :=
  ∀ k, n ≤ k → σ k = k

namespace Renames

variable {n m k : Nat} {σ : Equiv.Perm ℕ}

theorem lt_iff (h : Renames n σ) (le : n ≤ m) : σ k < m ↔ k < m := by
  by_cases above : n ≤ k
  · rw [h k above]
  · have below : σ k < n := by
      by_contra outside
      exact above (σ.injective (h (σ k) (Nat.le_of_not_lt outside)) ▸ Nat.le_of_not_lt outside)
    exact iff_of_true (below.trans_le le) (by omega)

theorem symm_lt_iff (h : Renames n σ) (le : n ≤ m) : σ.symm k < m ↔ k < m := by
  rw [← h.lt_iff le, Equiv.apply_symm_apply]

end Renames

/-! ## Operators -/

/-- The operator with letter `k` moved to position `σ k`. -/
def Pauli.rename (σ : Equiv.Perm ℕ) (p : Pauli) : Pauli :=
  ⟨(List.range p.size).map fun j => p.letter (σ.symm j)⟩

/-- Every qubit in the slot of its new name. -/
def Placement.renamedHome (σ : Equiv.Perm ℕ) (n : Nat) : Placement :=
  ⟨(List.range n).map σ⟩

namespace Placement

variable {n m : Nat} {σ : Equiv.Perm ℕ}

@[simp] theorem size_renamedHome (σ : Equiv.Perm ℕ) (m : Nat) : (renamedHome σ m).size = m := by
  simp [renamedHome, size]

theorem slot_renamedHome (σ : Equiv.Perm ℕ) {k : Nat} (hk : k < m) :
    (renamedHome σ m).slot k = σ k := by
  simp [renamedHome, slot, List.getD_eq_getElem?_getD, hk]

theorem nodup_renamedHome (σ : Equiv.Perm ℕ) (m : Nat) : (renamedHome σ m).slots.Nodup :=
  List.nodup_range.map σ.injective

theorem mem_renamedHome_iff (h : Renames n σ) (le : n ≤ m) {j : Nat} :
    j ∈ (renamedHome σ m).slots ↔ j < m := by
  rw [← h.symm_lt_iff le, renamedHome, List.mem_map]
  constructor
  · rintro ⟨k, hk, rfl⟩
    rwa [Equiv.symm_apply_apply, ← List.mem_range]
  · intro hj
    exact ⟨σ.symm j, List.mem_range.mpr hj, σ.apply_symm_apply j⟩

end Placement

namespace Pauli

variable {n : Nat} {σ : Equiv.Perm ℕ} {p q : Pauli}

@[simp] theorem size_rename (σ : Equiv.Perm ℕ) (p : Pauli) : (p.rename σ).size = p.size := by
  simp [rename, size]

theorem letter_rename (h : Renames n σ) (le : n ≤ p.size) (k : Nat) :
    (p.rename σ).letter (σ k) = p.letter k := by
  by_cases hk : k < p.size
  · have inside : σ k < p.size := (h.lt_iff le).mpr hk
    simp [rename, letter, List.getD_eq_getElem?_getD, inside]
  · have outside : p.size ≤ σ k := Nat.le_of_not_lt fun lt => hk ((h.lt_iff le).mp lt)
    rw [letter_of_size_le (Nat.le_of_not_lt hk), letter_of_size_le (by rwa [size_rename])]

/-- A renamed operator is the operator lifted to the slots of the new names, so it takes part in
everything that is known of lifted ones. -/
theorem lifts_rename (h : Renames n σ) (le : n ≤ p.size) :
    (Placement.renamedHome σ p.size).Lifts p.size p (p.rename σ) := by
  refine ⟨(Placement.size_renamedHome ..).symm, size_rename .., ?_, ?_⟩
  · intro k hk
    rw [Placement.size_renamedHome] at hk
    rw [Placement.slot_renamedHome σ hk, letter_rename h le]
  · intro j hj
    rw [Placement.mem_renamedHome_iff h le] at hj
    exact letter_of_size_le (by rw [size_rename]; omega)

theorem rename_modify (h : Renames n σ) (le : n ≤ p.size) {k : Nat} (hk : k < p.size)
    (f : Letter → Letter) : (p.modify k f).rename σ = (p.rename σ).modify (σ k) f := by
  have lifts := (lifts_rename h le).modify (Placement.nodup_renamedHome ..)
    (fun j => (Placement.mem_renamedHome_iff h le).mp) (by simpa using hk) f
  have renamed := lifts_rename (p := p.modify k f) h (by simpa using le)
  rw [Placement.slot_renamedHome σ hk] at lifts
  rw [size_modify] at renamed
  exact renamed.unique lifts

theorem rename_conjugateCX (h : Renames n σ) (le : n ≤ p.size) {c t : Nat} (hc : c < p.size)
    (ht : t < p.size) : (p.conjugateCX c t).rename σ = (p.rename σ).conjugateCX (σ c) (σ t) := by
  have lifts := (lifts_rename h le).conjugateCX (Placement.nodup_renamedHome ..)
    (fun j => (Placement.mem_renamedHome_iff h le).mp) (c := c) (t := t) (by simpa using hc)
    (by simpa using ht)
  have renamed := lifts_rename (p := p.conjugateCX c t) h (by simpa using le)
  rw [Placement.slot_renamedHome σ hc, Placement.slot_renamedHome σ ht] at lifts
  rw [size_conjugateCX] at renamed
  exact renamed.unique lifts

theorem commutes_rename (h : Renames n σ) (le : n ≤ p.size) (same : q.size = p.size) :
    (p.rename σ).commutes (q.rename σ) = p.commutes q := by
  have lifts := lifts_rename (p := q) h (same ▸ le)
  rw [same] at lifts
  exact Placement.Lifts.commutes_eq (Placement.nodup_renamedHome ..)
    (fun j => (Placement.mem_renamedHome_iff h le).mp) (lifts_rename h le) lifts

theorem rename_single (h : Renames n σ) {k : Nat} (hk : k < n) (a : Letter) :
    (single n k a).rename σ = single n (σ k) a := by
  apply ext_letter (by simp)
  intro j _
  obtain ⟨j, rfl⟩ := σ.surjective j
  rw [letter_rename h (by simp), letter_single a hk, letter_single a ((h.lt_iff le_rfl).mpr hk)]
  simp

end Pauli

/-! ## Gates -/

theorem Gate.carries_rename {n : Nat} {σ : Equiv.Perm ℕ} {g : Gate} (h : Renames n σ)
    (carries : g.Carries n) : (g.rename σ).Carries n := by
  constructor
  · cases g <;> exact carries.1
  · rw [Gate.fits_iff, Gate.qubits_rename, List.forall_mem_map]
    intro k hk
    exact (h.lt_iff le_rfl).mpr (Gate.fits_iff.mp carries.2 k hk)

namespace Pauli

variable {n : Nat} {σ : Equiv.Perm ℕ} {p : Pauli}

theorem rename_past (h : Renames n σ) (size : p.size = n) {g : Gate} (carries : g.Carries n) :
    (p.past g).rename σ = (p.rename σ).past (g.rename σ) := by
  have le : n ≤ p.size := size.ge
  have fits : ∀ k ∈ g.qubits, k < p.size := size ▸ Gate.fits_iff.mp carries.2
  have fits' : ∀ k, k < p.size → σ k < (p.rename σ).size := by
    intro k hk
    rw [size_rename]
    exact (h.lt_iff le).mpr hk
  cases g with
  | h k =>
    have hk : k < p.size := fits k (by simp [Gate.qubits])
    rw [Gate.rename, past_h hk, past_h (fits' k hk), rename_modify h le hk]
  | s k =>
    have hk : k < p.size := fits k (by simp [Gate.qubits])
    rw [Gate.rename, past_s hk, past_s (fits' k hk), rename_modify h le hk]
  | cx c t =>
    have hc : c < p.size := fits c (by simp [Gate.qubits])
    have ht : t < p.size := fits t (by simp [Gate.qubits])
    rw [Gate.rename, past_cx hc ht, past_cx (fits' c hc) (fits' t ht),
      rename_conjugateCX h le hc ht]
  | cz | meas => cases carries.1

theorem rename_through (h : Renames n σ) (size : p.size = n) {gates : List Gate}
    (carries : ∀ g ∈ gates, g.Carries n) :
    (p.through gates).rename σ = (p.rename σ).through (gates.map (Gate.rename σ)) := by
  induction gates generalizing p with
  | nil => rfl
  | cons g gates ih =>
    rw [List.forall_mem_cons] at carries
    have renamed : (g.rename σ).Carries (p.rename σ).size := by
      rw [size_rename, size]
      exact Gate.carries_rename h carries.1
    rw [through_cons (size ▸ carries.1), List.map_cons, through_cons renamed,
      ih (by simpa using size) carries.2, rename_past h size carries.1]

end Pauli

/-! ## Networks as lists -/

namespace Op

variable {n : Nat} {σ : Equiv.Perm ℕ} {p : Pauli}

def rename (σ : Equiv.Perm ℕ) : Op → Op
  | gate step g => gate step (g.rename σ)
  | rotation step axis sign => rotation step (axis.rename σ) sign

/-- A gate or rotation on `n` qubits. -/
def Spans (n : Nat) : Op → Prop
  | gate _ g => g.Carries n
  | rotation _ axis _ => axis.size = n

theorem gates_rename (σ : Equiv.Perm ℕ) (ops : List Op) :
    gates (ops.map (rename σ)) = (gates ops).map (Gate.rename σ) := by
  induction ops with
  | nil => rfl
  | cons op ops ih =>
    cases op with
    | gate step g => exact congrArg (g.rename σ :: ·) ih
    | rotation => exact ih

theorem carries_of_spans {ops : List Op} (spans : ∀ op ∈ ops, op.Spans n) :
    ∀ g ∈ gates ops, g.Carries n := by
  intro g hg
  obtain ⟨op, hop, own⟩ := List.mem_filterMap.mp hg
  have spanned := spans op hop
  cases op with
  | gate step g' =>
    cases own
    exact spanned
  | rotation => cases own

/-- A renamed operator flips the renamed rotations that the operator flips. -/
theorem flips_rename (h : Renames n σ) (size : p.size = n) {ops : List Op}
    (spans : ∀ op ∈ ops, op.Spans n) : flips (p.rename σ) (ops.map (rename σ)) = flips p ops := by
  induction ops generalizing p with
  | nil => rfl
  | cons op ops ih =>
    rw [List.forall_mem_cons] at spans
    cases op with
    | gate step g =>
      rw [List.map_cons, rename, flips, flips, ← Pauli.rename_past h size spans.1]
      exact ih (by simpa using size) spans.2
    | rotation step axis sign =>
      have axisSize : axis.size = n := spans.1
      rw [List.map_cons, rename, flips, flips, ih size spans.2,
        Pauli.commutes_rename h axisSize.ge (size.trans axisSize.symm)]

end Op

/-! ## Registers -/

/-- Qubit `σ k` lives in slot `σ j` if `k` lived in slot `j`. -/
def Placement.rename (σ : Equiv.Perm ℕ) (m : Placement) : Placement :=
  ⟨(List.range m.size).map fun j => σ (m.slot (σ.symm j))⟩

namespace Placement

variable {n width : Nat} {σ : Equiv.Perm ℕ} {m : Placement} {p q : Pauli}

theorem ext_slot {m m' : Placement} (size : m.size = m'.size)
    (slots : ∀ k, k < m.size → m.slot k = m'.slot k) : m = m' := by
  cases m with | mk as =>
  cases m' with | mk bs =>
  have same : as = bs := by
    apply List.ext_getElem size
    intro k hk hk'
    simpa [slot, List.getD_eq_getElem?_getD, hk, hk'] using slots k hk
  rw [same]

@[simp] theorem size_rename (σ : Equiv.Perm ℕ) (m : Placement) : (m.rename σ).size = m.size := by
  simp [rename, size]

theorem slot_rename (h : Renames n σ) (size : m.size = n) {k : Nat} (hk : k < n) :
    (m.rename σ).slot (σ k) = σ (m.slot k) := by
  have inside : σ k < m.size := (h.lt_iff size.ge).mpr (hk.trans_eq size.symm)
  simp [rename, slot, List.getD_eq_getElem?_getD, inside]

theorem rename_home (h : Renames n σ) : (home n).rename σ = home n := by
  apply ext_slot (by simp)
  intro j hj
  rw [size_rename, size_home] at hj
  have named := slot_rename h (size_home n) ((h.symm_lt_iff le_rfl).mpr hj)
  rw [slot_home, Equiv.apply_symm_apply] at named
  rw [named, slot_home]

theorem rename_assign (h : Renames n σ) (size : m.size = n) {k : Nat} (hk : k < n) (s : Nat) :
    (m.assign k s).rename σ = (m.rename σ).assign (σ k) (σ s) := by
  have renamed : σ k < (m.rename σ).size := by
    rw [size_rename, size]
    exact (h.lt_iff le_rfl).mpr hk
  apply ext_slot (by simp)
  intro j hj
  obtain ⟨j, rfl⟩ := σ.surjective j
  rw [size_rename, size_assign, size, h.lt_iff le_rfl] at hj
  rw [slot_rename h ((size_assign ..).trans size) hj, slot_assign _ _ _ _ (hk.trans_eq size.symm),
    slot_assign _ _ _ _ renamed, slot_rename h size hj]
  by_cases same : j = k
  · simp [same]
  · simp [same]

theorem Lifts.rename (h : Renames n σ) (size : m.size = n) (wide : n ≤ width)
    (lifts : m.Lifts width p q) : (m.rename σ).Lifts width (p.rename σ) (q.rename σ) := by
  have psize : p.size = n := lifts.size.trans size
  have qsize : n ≤ q.size := wide.trans_eq lifts.wide.symm
  refine ⟨by simpa using lifts.size, by simpa using lifts.wide, ?_, ?_⟩
  · intro k hk
    obtain ⟨k, rfl⟩ := σ.surjective k
    rw [size_rename, size, h.lt_iff le_rfl] at hk
    rw [slot_rename h size hk, Pauli.letter_rename h qsize, Pauli.letter_rename h psize.ge,
      lifts.live k (hk.trans_eq size.symm)]
  · intro j hj
    obtain ⟨j, rfl⟩ := σ.surjective j
    rw [Pauli.letter_rename h qsize]
    apply lifts.idle
    intro live
    obtain ⟨k, hk, rfl⟩ := exists_of_mem live
    rw [size] at hk
    apply hj
    rw [← slot_rename h size hk]
    apply slot_mem
    rw [size_rename, size]
    exact (h.lt_iff le_rfl).mpr hk

end Placement

def Register.rename (σ : Equiv.Perm ℕ) (r : Register) : Register :=
  { r with placement := r.placement.rename σ }

namespace Register

variable {n : Nat} {σ : Equiv.Perm ℕ} {r : Register}

theorem rename_moved (h : Renames n σ) (size : r.size = n) (above : n ≤ r.allocated) {q : Nat}
    (hq : q < n) : (r.moved q).rename σ = (r.rename σ).moved (σ q) := by
  have placement := Placement.rename_assign h size hq r.allocated
  rw [h r.allocated above] at placement
  simp only [rename, moved, placement]

theorem rename_foldl_after (h : Renames n σ) (size : r.size = n) (above : n ≤ r.allocated)
    {gates : List Gate} (carries : ∀ g ∈ gates, g.Carries n) :
    (gates.foldl after r).rename σ = (gates.map (Gate.rename σ)).foldl after (r.rename σ) := by
  induction gates generalizing r with
  | nil => rfl
  | cons g gates ih =>
    rw [List.forall_mem_cons] at carries
    have first : (r.after g).rename σ = (r.rename σ).after (g.rename σ) := by
      cases g with
      | h q => exact rename_moved h size above (by simpa [Gate.fits, Gate.qubits] using carries.1.2)
      | s | cx | cz | meas => rfl
    have allocated := r.allocated_after g
    rw [List.foldl_cons, List.map_cons, List.foldl_cons, ← first]
    exact ih (by simpa using size) (by omega) carries.2

end Register

/-! ## The pass -/

def Gadget.rename (σ : Equiv.Perm ℕ) (g : Gadget) : Gadget :=
  { g with
    qubit := σ g.qubit
    retired := σ g.retired
    fresh := σ g.fresh
    correction := g.correction.rename σ }

def Emitted.rename (σ : Equiv.Perm ℕ) : Emitted → Emitted
  | gate g => gate (g.rename σ)
  | gadget g => gadget (g.rename σ)
  | rotation step axis sign => rotation step (axis.rename σ) sign

namespace Emission

variable {n : Nat} {σ : Equiv.Perm ℕ} {ops : List Op} {r r' : Register} {es : List Emitted}

theorem spans (h : Emission n ops r es r') (size : r.size = n) : ∀ op ∈ ops, op.Spans n := by
  induction h with
  | nil r => exact fun op hop => absurd hop List.not_mem_nil
  | gate carries other rest ih => exact List.forall_mem_cons.mpr ⟨carries, ih size⟩
  | hadamard hq free flipped left rest ih =>
    refine List.forall_mem_cons.mpr ⟨⟨rfl, ?_⟩, ih (by simpa using size)⟩
    simpa [Gate.fits, Gate.qubits] using hq
  | rotation lifts rest ih => exact List.forall_mem_cons.mpr ⟨lifts.size.trans size, ih size⟩

/-- What is left of an X behind an H gate, renamed. -/
theorem left_rename (renames : Renames n σ) (size : r.size = n) (above : n ≤ r.allocated)
    (wide : n ≤ r.width) {q : Nat} (hq : q < n) (spans : ∀ op ∈ ops, op.Spans n)
    {correction : Pauli}
    (left : ((Op.gates ops).foldl Register.after (r.moved q)).placement.Lifts r.width
      ((Pauli.single n q .X).through (Op.gates ops)) correction) :
    ((Op.gates (ops.map (Op.rename σ))).foldl Register.after
        ((r.rename σ).moved (σ q))).placement.Lifts r.width
      ((Pauli.single n (σ q) .X).through (Op.gates (ops.map (Op.rename σ))))
      (correction.rename σ) := by
  have carries := Op.carries_of_spans spans
  have moved : (r.moved q).size = n := by rwa [Register.size_moved]
  have settled : ((Op.gates ops).foldl Register.after (r.moved q)).placement.size = n :=
    (Register.size_foldl_after ..).trans moved
  have ends := Register.rename_foldl_after renames moved (above.trans (Nat.le_succ _)) carries
  rw [Register.rename_moved renames size above hq] at ends
  have renamed := left.rename renames settled wide
  rw [Pauli.rename_through renames (Pauli.size_single ..) carries,
    Pauli.rename_single renames hq] at renamed
  rw [Op.gates_rename, ← ends]
  exact renamed

/-- A renamed list of operations emits what the list emits, renamed. -/
theorem rename (h : Emission n ops r es r') (renames : Renames n σ) (size : r.size = n)
    (above : n ≤ r.allocated) (wide : n ≤ r.width) :
    Emission n (ops.map (Op.rename σ)) (r.rename σ) (es.map (Emitted.rename σ))
      (r'.rename σ) := by
  induction h with
  | nil r => exact .nil _
  | @gate step g ops r r' es carries other rest ih =>
    have placed : (g.rename r.placement.slot).rename σ =
        (g.rename σ).rename (r.rename σ).placement.slot := by
      rw [Gate.rename_rename, Gate.rename_rename]
      apply Gate.rename_congr
      intro k hk
      exact (Placement.slot_rename renames size (Gate.fits_iff.mp carries.2 k hk)).symm
    have kept : (g.rename σ).isH = false := by cases g <;> exact other
    rw [List.map_cons, List.map_cons, Op.rename, Emitted.rename, placed]
    exact .gate (Gate.carries_rename renames carries) kept (ih size above wide)
  | @hadamard step q ops r r' es flips correction hq free flipped left rest ih =>
    have moved : (r.moved q).newOutcome.2.size = n := by simpa using size
    have spans := rest.spans moved
    have slot : (r.rename σ).placement.slot (σ q) = σ (r.placement.slot q) :=
      Placement.slot_rename renames size hq
    have fresh : σ r.allocated = r.allocated := renames _ above
    have next : (r.moved q).newOutcome.2.rename σ = ((r.rename σ).moved (σ q)).newOutcome.2 := by
      rw [← Register.rename_moved renames size above hq]
      rfl
    have later := ih moved (above.trans (Nat.le_succ _)) wide
    rw [next] at later
    have flipped' : ∀ k, k ∈ flips ↔
        k = step ∨ k ∈ Op.flips (.single n (σ q) .X) (ops.map (Op.rename σ)) := by
      rw [← Pauli.rename_single renames hq, Op.flips_rename renames (Pauli.size_single ..) spans]
      exact flipped
    rw [List.map_cons, List.map_cons, Op.rename, Emitted.rename, Gadget.rename, fresh, ← slot]
    exact .hadamard ((renames.lt_iff le_rfl).mpr hq) free flipped'
      (left_rename renames size above wide hq spans left) later
  | @rotation step axis lifted sign ops r r' es lifts rest ih =>
    exact .rotation (lifts.rename renames size wide) (ih size above wide)

end Emission

/-! ## Networks and circuits -/

def Step.rename (σ : Equiv.Perm ℕ) (s : Step) : Step :=
  ⟨s.piece.map (Gate.rename σ), s.axis.rename σ, s.sign⟩

def Network.rename (σ : Equiv.Perm ℕ) (network : Network) : Network :=
  ⟨network.steps.map (Step.rename σ)⟩

/-- Flips and signs name no qubits and stay. -/
def StreamOp.rename (σ : Equiv.Perm ℕ) : StreamOp → StreamOp
  | gate g => gate (g.rename σ)
  | rotation r => rotation { r with axis := r.axis.rename σ }

theorem Op.ofSteps_rename (σ : Equiv.Perm ℕ) (first : Nat) (steps : List Step) :
    ofSteps first (steps.map (Step.rename σ)) = (ofSteps first steps).map (rename σ) := by
  induction steps generalizing first with
  | nil => rfl
  | cons s steps ih =>
    have own : ofStep first (s.rename σ) = (ofStep first s).map (rename σ) := by
      simp [ofStep, Step.rename, rename, Function.comp_def]
    rw [List.map_cons, ofSteps, ofSteps, ih, List.map_append, own]

namespace Network

variable {network : Network} {u : Unfolded} {n : Nat} {σ : Equiv.Perm ℕ}

theorem width?_rename (σ : Equiv.Perm ℕ) (network : Network) :
    (network.rename σ).width? = network.width? := by
  cases network with | mk steps =>
  cases steps with
  | nil => rfl
  | cons s steps => exact congrArg some (Pauli.size_rename σ s.axis)

theorem hCount_rename (σ : Equiv.Perm ℕ) (network : Network) :
    (network.rename σ).hCount = network.hCount := by
  have kind : Gate.isH ∘ Gate.rename σ = Gate.isH := by
    funext g
    cases g <;> rfl
  rw [hCount, hCount, ← gates_ops, ← gates_ops, rename, Op.ofSteps_rename, Op.gates_rename,
    List.countP_map, kind]

theorem carries_rename (renames : Renames n σ) (carries : ∀ s ∈ network.steps, s.Carries n) :
    ∀ s ∈ (network.rename σ).steps, s.Carries n := by
  rw [rename, List.forall_mem_map]
  intro s hs
  refine ⟨(Pauli.size_rename ..).trans (carries s hs).axis, ?_⟩
  rw [Step.rename, List.forall_mem_map]
  intro g hg
  exact Gate.carries_rename renames ((carries s hs).piece g hg)

end Network

def Unfolded.rename (σ : Equiv.Perm ℕ) (u : Unfolded) : Unfolded :=
  ⟨u.width, u.emitted.map (Emitted.rename σ), u.layout.rename σ⟩

namespace Unfolded

theorem gadgets_rename (σ : Equiv.Perm ℕ) (u : Unfolded) :
    (u.rename σ).gadgets = u.gadgets.map (Gadget.rename σ) := by
  rw [gadgets, gadgets, rename, List.filterMap_map, List.map_filterMap]
  apply List.filterMap_congr
  intro e _
  cases e <;> rfl

theorem stream_rename (σ : Equiv.Perm ℕ) (u : Unfolded) :
    (u.rename σ).stream = u.stream.map (StreamOp.rename σ) := by
  have flipping : ∀ k, Gadget.flipping (u.rename σ).gadgets k = Gadget.flipping u.gadgets k := by
    intro k
    rw [gadgets_rename, Gadget.flipping, Gadget.flipping, List.filter_map, List.map_map]
    rfl
  rw [stream, stream, rename, List.map_map, List.map_map]
  apply List.map_congr_left
  intro e _
  cases e with
  | gate | gadget => rfl
  | rotation step axis sign =>
    have same := flipping step
    simp only [Function.comp_apply, Emitted.rename, Emitted.toOp, StreamOp.rename]
    rw [← same]
    rfl

theorem ending_rename (σ : Equiv.Perm ℕ) (u : Unfolded) :
    (u.rename σ).ending = u.ending.map (Gate.rename σ) := by
  rw [ending, ending, gadgets_rename, Gadget.readout, Gadget.readout, List.flatMap_map,
    List.map_flatMap]
  rfl

theorem corrections_rename (σ : Equiv.Perm ℕ) (u : Unfolded) :
    (u.rename σ).corrections = u.corrections.map (Pauli.rename σ) := by
  rw [corrections, corrections, gadgets_rename, Gadget.corrections, Gadget.corrections,
    List.map_map, List.map_map]
  rfl

end Unfolded

/-- A renamed network unfolds to the renamed circuit. -/
theorem Network.unfolded_rename {network : Network} {u : Unfolded} {n : Nat} {σ : Equiv.Perm ℕ}
    (unfolds : network.unfolded = .ok u) (width : network.width? = some n)
    (renames : Renames n σ) :
    ∃ u', (network.rename σ).unfolded = .ok u' ∧ (u.rename σ).Agrees u' := by
  obtain ⟨carries, wide, r, layout, emission⟩ := network.unfolded_emission unfolds width
  have width' : (network.rename σ).width? = some n := (width?_rename σ network).trans width
  obtain ⟨u', r', unfolds', wide', layout', emission'⟩ :=
    exists_unfolded width' (carries_rename renames carries)
  have same : u'.width = u.width := by rw [wide', wide, hCount_rename]
  have renamed := emission.rename renames (Register.size_start ..) le_rfl
    (by rw [wide]; exact Nat.le_add_right ..)
  have start : (Register.start n u.width).rename σ = Register.start n u'.width := by
    rw [same, Register.rename, Register.start, Placement.rename_home renames]
  rw [start, ← Op.ofSteps_rename] at renamed
  obtain ⟨register, emitted⟩ := renamed.agrees emission'
  refine ⟨u', unfolds', same, emitted, ?_⟩
  rw [layout', ← register, Unfolded.rename, layout]
  rfl

/-- The permutation of the slots that renames the qubits as `p` does: the slots above those of
the qubits keep their numbers. -/
def onSlots {n : Nat} (p : Equiv.Perm (Fin n)) : Equiv.Perm ℕ :=
  p.extendDomain Fin.equivSubtype

theorem onSlots_apply {n : Nat} (p : Equiv.Perm (Fin n)) (k : Fin n) : onSlots p k = p k :=
  p.extendDomain_apply_image Fin.equivSubtype k

theorem renames_onSlots {n : Nat} (p : Equiv.Perm (Fin n)) : Renames n (onSlots p) :=
  fun _ above => p.extendDomain_apply_not_subtype _ (Nat.not_lt.mpr above)

/-- **Names do not matter.** If the qubits of a network are renamed by a permutation, its
circuit has the same width and preparations, and its stream, measurements, layout and
corrections are the old ones with the slots of the qubits renamed. Flips and signs stay. -/
theorem renamed_network_unfolds {network : Network} {u : Unfolded} {n : Nat}
    (unfolds : network.unfolded = .ok u) (width : network.width? = some n)
    (p : Equiv.Perm (Fin n)) :
    ∃ u', (network.rename (onSlots p)).unfolded = .ok u' ∧
      u'.width = u.width ∧ u'.beginning = u.beginning ∧
      u'.stream = u.stream.map (StreamOp.rename (onSlots p)) ∧
      u'.ending = u.ending.map (Gate.rename (onSlots p)) ∧
      (u'.layout.size = n ∧
        ∀ k : Fin n, u'.layout.get? (p k) = (u.layout.get? k).map (onSlots p)) ∧
      u'.corrections = u.corrections.map (Pauli.rename (onSlots p)) := by
  have renames := renames_onSlots p
  obtain ⟨u', unfolds', agrees⟩ := Network.unfolded_rename unfolds width renames
  obtain ⟨size, -⟩ := Network.slots_partition unfolds width
  have width' := (network.width?_rename (onSlots p)).trans width
  have size' : (u.layout.rename (onSlots p)).size = n := (Placement.size_rename ..).trans size
  have layout : u'.layout = u.layout.rename (onSlots p) := agrees.layout
  refine ⟨u', unfolds', agrees.width, ?_, ?_, ?_, ⟨?_, ?_⟩, ?_⟩
  · rw [Network.beginning_eq unfolds' width', Network.beginning_eq unfolds width,
      Network.hCount_rename]
  · rw [agrees.stream_eq, Unfolded.stream_rename]
  · rw [agrees.ending_eq, Unfolded.ending_rename]
  · rw [layout, size']
  · intro k
    have slot := Placement.slot_rename renames size k.isLt
    rw [onSlots_apply] at slot
    rw [layout, Placement.get?_eq_slot ((p k).isLt.trans_eq size'.symm), slot,
      Placement.get?_eq_slot (k.isLt.trans_eq size.symm)]
    rfl
  · rw [agrees.corrections_eq, Unfolded.corrections_rename]

/-- Two qubits exchange their names. The first H gate now retires slot 1, and the second, on
the same qubit, still retires slot 2. -/
theorem renamed_network_unfolds_of_swap :
    let network : Network := ⟨[⟨[.h 0, .cx 0 1], ⟨[.Z, .I]⟩, false⟩, ⟨[.h 0], ⟨[.Z, .Z]⟩, true⟩]⟩
    let p : Equiv.Perm (Fin 2) := Equiv.swap 0 1
    network.width? = some 2 ∧
    network.rename (onSlots p) =
      ⟨[⟨[.h 1, .cx 1 0], ⟨[.I, .Z]⟩, false⟩, ⟨[.h 1], ⟨[.Z, .Z]⟩, true⟩]⟩ ∧
    ∃ u u', network.unfolded = .ok u ∧
      u.ending = [.h 0, .meas 0 0, .h 2, .meas 2 1] ∧
      (network.rename (onSlots p)).unfolded = .ok u' ∧
      u'.width = u.width ∧ u'.beginning = u.beginning ∧
      u'.stream = u.stream.map (StreamOp.rename (onSlots p)) ∧
      u'.ending = u.ending.map (Gate.rename (onSlots p)) ∧
      (u'.layout.size = 2 ∧
        ∀ k : Fin 2, u'.layout.get? (p k) = (u.layout.get? k).map (onSlots p)) ∧
      u'.corrections = u.corrections.map (Pauli.rename (onSlots p)) := by
  intro network p
  obtain ⟨u, unfolds, ending⟩ : ∃ u, network.unfolded = .ok u ∧
      u.ending = [.h 0, .meas 0 0, .h 2, .meas 2 1] := ⟨_, rfl, by decide⟩
  obtain ⟨u', renamed⟩ := renamed_network_unfolds unfolds rfl p
  exact ⟨rfl, by decide, u, u', unfolds, ending, renamed⟩

end HadamardFree
