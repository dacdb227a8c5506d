import HadamardFree.Proofs.Symmetry

/-!
# Interrupted conjugation

An operator is conjugated in place, by one gate after the other. A gate that it cannot pass ends
this, and the gates before it stay applied.

* `Gate.Bars`: what stops an operator at a gate;
* `Pauli.conjugateGate_eq_error_iff`, `Pauli.advance_eq_stopped_iff`: where an operator stops, at
  one gate and in a list of gates;
* `Rows`, `Rows.Action`: the X bits and the Z bits of an operator as two rows, and what is done to
  single bits for a gate;
* `Rows.run_actions`, `Rows.run_gates`: the rows follow the letters through one gate, and through a
  list of gates, up to where they stop;
* `conjugation_stops_at_first_bar`: all of it for one list of gates.
-/

namespace HadamardFree

/-! ## What stops an operator -/

/-- What stops an operator on `n` qubits at a gate. Whether there is a rule for the gate comes
first, then the first of its qubits that the operator does not have. -/
inductive Gate.Bars (n : Nat) : Gate → ConjugationError → Prop
  | unsupported {g : Gate} (kind : g.isElementary = false) : Bars n g (.unsupportedGate g)
  | outside {g : Gate} {k : Nat} (kind : g.isElementary = true)
      (first : g.qubits.find? (n ≤ ·) = some k) : Bars n g (.qubitOutOfRange k n)

namespace Gate

variable {n : Nat} {g : Gate} {e e' : ConjugationError}

theorem not_carries_iff : ¬ g.Carries n ↔ g.isElementary = false ∨ ∃ k ∈ g.qubits, n ≤ k := by
  rw [Carries, not_and_or, fits_iff, Bool.not_eq_true]
  push Not
  rfl

theorem Bars.not_carries (h : g.Bars n e) : ¬ g.Carries n := by
  rw [not_carries_iff]
  cases h with
  | unsupported kind => exact .inl kind
  | @outside k kind first =>
    have beyond : n ≤ k := by simpa using List.find?_some first
    exact .inr ⟨k, List.mem_of_find?_eq_some first, beyond⟩

theorem Bars.unique (h : g.Bars n e) (h' : g.Bars n e') : e = e' := by
  cases h with
  | unsupported kind =>
    cases h' with
    | unsupported => rfl
    | outside kind' => rw [kind] at kind'; cases kind'
  | outside kind first =>
    cases h' with
    | unsupported kind' => rw [kind] at kind'; cases kind'
    | outside kind' first' =>
      rw [first] at first'
      cases first'
      rfl

end Gate

namespace Pauli

variable {p q : Pauli} {g : Gate} {gates : List Gate} {e : ConjugationError}

theorem bars_of_conjugateGate (refused : p.conjugateGate g = .error e) : g.Bars p.size e := by
  cases g with
  | h k | s k =>
    by_cases hk : k < p.size
    · simp [conjugateGate, hk] at refused
    · rw [conjugateGate, if_neg hk] at refused
      cases refused
      exact .outside rfl (by simp [Gate.qubits, Nat.le_of_not_lt hk])
  | cx c t =>
    by_cases hc : c < p.size
    · by_cases ht : t < p.size
      · simp [conjugateGate, hc, ht] at refused
      · rw [conjugateGate, if_pos hc, if_neg ht] at refused
        cases refused
        exact .outside rfl (by simp [Gate.qubits, hc, Nat.le_of_not_lt ht])
    · rw [conjugateGate, if_neg hc] at refused
      cases refused
      exact .outside rfl (by simp [Gate.qubits, Nat.le_of_not_lt hc])
  | cz a b | meas k id =>
    cases refused
    exact .unsupported rfl

/-- An operator is refused by a gate for what stops it there. -/
theorem conjugateGate_eq_error_iff : p.conjugateGate g = .error e ↔ g.Bars p.size e := by
  refine ⟨bars_of_conjugateGate, fun bars => ?_⟩
  cases conjugated : p.conjugateGate g with
  | ok q => exact absurd ((p.conjugateGate_isOk g).mp ⟨q, conjugated⟩) bars.not_carries
  | error e' => rw [bars.unique (bars_of_conjugateGate conjugated)]

/-- An operator stops at the first gate that it cannot pass, as the conjugate by the gates before
it. -/
theorem advance_eq_stopped_iff :
    p.advance gates = (q, some e) ↔ ∃ before g after, gates = before ++ g :: after ∧
      (∀ g' ∈ before, g'.Carries p.size) ∧ g.Bars p.size e ∧ p.conjugate before = .ok q := by
  constructor
  · intro stopped
    induction gates generalizing p with
    | nil => cases stopped
    | cons g gates ih =>
      rw [advance] at stopped
      cases first : p.conjugateGate g with
      | error e' =>
        rw [first] at stopped
        cases stopped
        exact ⟨[], g, gates, rfl, List.forall_mem_nil _, bars_of_conjugateGate first, rfl⟩
      | ok p' =>
        rw [first] at stopped
        have carries : g.Carries p.size := (p.conjugateGate_isOk g).mp ⟨p', first⟩
        obtain ⟨before, g', after, rfl, passes, bars, conjugated⟩ := ih stopped
        rw [size_of_conjugateGate first] at passes bars
        refine ⟨g :: before, g', after, rfl, List.forall_mem_cons.mpr ⟨carries, passes⟩, bars, ?_⟩
        rw [conjugate_cons, first]
        exact conjugated
  · rintro ⟨before, g, after, rfl, passes, bars, conjugated⟩
    induction before generalizing p with
    | nil =>
      cases conjugated
      rw [List.nil_append, advance, conjugateGate_eq_error_iff.mpr bars]
    | cons g' before ih =>
      rw [List.forall_mem_cons] at passes
      have first := conjugateGate_eq_past passes.1
      rw [conjugate_cons, first] at conjugated
      rw [List.cons_append, advance, first]
      rw [← size_past p g'] at bars passes
      exact ih passes.2 bars conjugated

/-- An operator stops somewhere exactly if there is a gate that it cannot pass. -/
theorem advance_stops_iff :
    (∃ e, (p.advance gates).2 = some e) ↔ ∃ g ∈ gates, ¬ g.Carries p.size := by
  constructor
  · rintro ⟨e, stopped⟩
    obtain ⟨before, g, after, rfl, -, bars, -⟩ :=
      advance_eq_stopped_iff.mp (Prod.ext (y := (_, some e)) rfl stopped)
    exact ⟨g, by simp, bars.not_carries⟩
  · rintro ⟨g, member, bad⟩
    cases result : (p.advance gates).2 with
    | some e => exact ⟨e, rfl⟩
    | none =>
      have passed : p.conjugate gates = .ok (p.advance gates).1 := by
        rw [conjugate, ← Prod.eta (p.advance gates), result]
      exact absurd (carries_of_conjugate passed g member) bad

end Pauli

/-! ## Rows of bits -/

/-- The bits of an operator in two rows. -/
structure Rows where
  x : List Bool
  z : List Bool
  deriving DecidableEq, Repr

def Pauli.rows (p : Pauli) : Rows :=
  ⟨p.xBits, p.zBits⟩

namespace Rows

/-- A place in one of the rows. -/
inductive Place where
  | x (k : Nat)
  | z (k : Nat)
  deriving DecidableEq, Repr

def get? (r : Rows) : Place → Option Bool
  | .x k => r.x[k]?
  | .z k => r.z[k]?

def set (r : Rows) : Place → Bool → Rows
  | .x k, b => { r with x := r.x.set k b }
  | .z k, b => { r with z := r.z.set k b }

/-- What is done for a gate, one thing at a time: to refuse it, to check one of its qubits, to
exchange two bits, or to add a bit to another one. -/
inductive Action where
  | refuse (g : Gate)
  | check (k : Nat)
  | swap (first second : Place)
  | add (source target : Place)
  deriving DecidableEq, Repr

/-- The rows after an action, and the error that it ends with. There is no result if a bit is read
or written that does not exist. -/
def exec (r : Rows) : Action → Option (Rows × Option ConjugationError)
  | .refuse g => some (r, some (.unsupportedGate g))
  | .check k =>
    if k < r.x.length then some (r, none) else some (r, some (.qubitOutOfRange k r.x.length))
  | .swap first second =>
    match r.get? first, r.get? second with
    | some a, some b => some ((r.set first b).set second a, none)
    | _, _ => none
  | .add source target =>
    match r.get? source, r.get? target with
    | some a, some b => some (r.set target (b ^^ a), none)
    | _, _ => none

/-- The rows after actions one after the other, up to the first error. -/
def run (r : Rows) : List Action → Option (Rows × Option ConjugationError)
  | [] => some (r, none)
  | a :: actions =>
    match r.exec a with
    | some (r, none) => r.run actions
    | stopped => stopped

/-- A gate has its qubits checked before a bit is written. -/
def actions : Gate → List Action
  | .h k => [.check k, .swap (.x k) (.z k)]
  | .s k => [.check k, .add (.x k) (.z k)]
  | .cx c t => [.check c, .check t, .add (.z t) (.z c), .add (.x c) (.x t)]
  | .cz a b => [.refuse (.cz a b)]
  | .meas k id => [.refuse (.meas k id)]

theorem run_append (r : Rows) (first more : List Action) :
    r.run (first ++ more) =
      match r.run first with
      | some (r, none) => r.run more
      | stopped => stopped := by
  induction first generalizing r with
  | nil => rfl
  | cons a rest ih =>
    rw [List.cons_append, run, run]
    rcases r.exec a with _ | ⟨r', _ | e⟩
    · rfl
    · exact ih r'
    · rfl

variable {p : Pauli} {k : Nat}

theorem get?_rows (hk : k < p.size) :
    p.rows.get? (.x k) = some (p.letter k).x ∧ p.rows.get? (.z k) = some (p.letter k).z := by
  have found : p.letters[k]? = some (p.letter k) := Pauli.get?_eq_letter hk
  simp [get?, Pauli.rows, Pauli.xBits, Pauli.zBits, found]

theorem set_of_get? {r : Rows} {place : Place} {b : Bool} (h : r.get? place = some b) :
    r.set place b = r := by
  cases place with
  | x k | z k =>
    obtain ⟨hk, rfl⟩ := List.getElem?_eq_some_iff.mp h
    simp [set]

theorem rows_modify (hk : k < p.size) (f : Letter → Letter) :
    (p.modify k f).rows =
      (p.rows.set (.x k) (f (p.letter k)).x).set (.z k) (f (p.letter k)).z := by
  have found : p.letters[k]? = some (p.letter k) := Pauli.get?_eq_letter hk
  have written : p.letters.modify k f = p.letters.set k (f (p.letter k)) := by
    rw [List.modify_eq_set_getElem?, found]
    rfl
  simp only [Pauli.rows, Pauli.xBits, Pauli.zBits, Pauli.modify, written, List.map_set, set]

/-- A letter with an X part only, or with a Z part only, changes one of the rows. -/
theorem rows_multiply (hk : k < p.size) (a : Letter) :
    (p.multiply k a.xPart).rows = p.rows.set (.x k) ((p.letter k).x ^^ a.x) ∧
    (p.multiply k a.zPart).rows = p.rows.set (.z k) ((p.letter k).z ^^ a.z) := by
  have own := get?_rows hk
  constructor
  · have kept : (p.rows.set (.x k) ((p.letter k).x ^^ a.x)).get? (.z k) = some (p.letter k).z :=
      own.2
    rw [Pauli.multiply, rows_modify hk]
    simp only [Letter.times, Letter.xPart, Letter.x_ofBits, Letter.z_ofBits, Bool.xor_false]
    exact set_of_get? kept
  · rw [Pauli.multiply, rows_modify hk]
    simp only [Letter.times, Letter.zPart, Letter.x_ofBits, Letter.z_ofBits, Bool.xor_false]
    rw [set_of_get? own.1]

theorem exec_check (p : Pauli) (k : Nat) :
    p.rows.exec (.check k) =
      some (p.rows, if k < p.size then none else some (.qubitOutOfRange k p.size)) := by
  have length : p.rows.x.length = p.size := by simp [Pauli.rows, Pauli.xBits, Pauli.size]
  rw [exec, length]
  split <;> rfl

theorem exec_swap (hk : k < p.size) :
    p.rows.exec (.swap (.x k) (.z k)) = some ((p.modify k Letter.hadamard).rows, none) := by
  obtain ⟨x, z⟩ := get?_rows hk
  simp only [exec, x, z, rows_modify hk, Letter.hadamard, Letter.x_ofBits, Letter.z_ofBits]

theorem exec_phase (hk : k < p.size) :
    p.rows.exec (.add (.x k) (.z k)) = some ((p.modify k Letter.phase).rows, none) := by
  obtain ⟨x, z⟩ := get?_rows hk
  have bits : (p.letter k).phase.x = (p.letter k).x ∧
      (p.letter k).phase.z = ((p.letter k).z ^^ (p.letter k).x) := by
    cases p.letter k <;> exact ⟨rfl, rfl⟩
  rw [rows_modify hk, bits.1, bits.2, set_of_get? x]
  simp only [exec, x, z]

/-- The Z bit of the control is written first, and the X bit of the target after it. -/
theorem run_cx {c t : Nat} (hc : c < p.size) (ht : t < p.size) :
    p.rows.run [.add (.z t) (.z c), .add (.x c) (.x t)] =
      some ((p.conjugateCX c t).rows, none) := by
  have control : p.rows.exec (.add (.z t) (.z c)) =
      some ((p.multiply c (p.letter t).zPart).rows, none) := by
    simp only [exec, (get?_rows ht).2, (get?_rows hc).2, (rows_multiply hc _).2]
  have size : (p.multiply c (p.letter t).zPart).size = p.size := Pauli.size_modify ..
  have target : (p.multiply c (p.letter t).zPart).rows.exec (.add (.x c) (.x t)) =
      some ((p.conjugateCX c t).rows, none) := by
    rw [← size] at hc ht
    simp only [exec, (get?_rows hc).1, (get?_rows ht).1, Pauli.conjugateCX, (rows_multiply ht _).1]
  simp only [run, control, target]

/-- The rows follow the letters through a gate. A gate that is refused leaves them as they are. -/
theorem run_actions (p : Pauli) (g : Gate) :
    p.rows.run (actions g) =
      some ((p.advance [g]).1.rows, (p.advance [g]).2) := by
  cases g with
  | h k =>
    by_cases hk : k < p.size <;>
      simp [actions, run, exec_check, exec_swap, Pauli.advance, Pauli.conjugateGate, hk]
  | s k =>
    by_cases hk : k < p.size <;>
      simp [actions, run, exec_check, exec_phase, Pauli.advance, Pauli.conjugateGate, hk]
  | cx c t =>
    by_cases hc : c < p.size
    · by_cases ht : t < p.size
      · have written := run_cx hc ht
        simp only [run] at written
        simp [actions, run, exec_check, written, Pauli.advance, Pauli.conjugateGate, hc, ht]
      · simp [actions, run, exec_check, Pauli.advance, Pauli.conjugateGate, hc, ht]
    · simp [actions, run, exec_check, Pauli.advance, Pauli.conjugateGate, hc]
  | cz a b | meas k id => rfl

/-- The rows follow the letters up to where they stop. -/
theorem run_gates (p : Pauli) (gates : List Gate) :
    p.rows.run (gates.flatMap actions) = some ((p.advance gates).1.rows, (p.advance gates).2) := by
  induction gates generalizing p with
  | nil => rfl
  | cons g gates ih =>
    rw [List.flatMap_cons, run_append, run_actions, Pauli.advance, Pauli.advance]
    cases p.conjugateGate g with
    | error e => rfl
    | ok q => exact ih q

end Rows

/-- **Conjugation stops at the first gate that cannot be passed.** It fails exactly if some gate is
a CZ gate or a measurement, or acts on a qubit that the operator does not have. The error is the one
of the first such gate, and what is left is the conjugate by the gates before it. Bit by bit the two
rows are changed in the same way: the gate that is refused changes none of the bits, none is missed
on the way, and both rows keep their length. -/
theorem conjugation_stops_at_first_bar (p : Pauli) (gates : List Gate) :
    ((∃ e, (p.advance gates).2 = some e) ↔
      ∃ g ∈ gates, g.isElementary = false ∨ ∃ k ∈ g.qubits, p.size ≤ k) ∧
    (∀ q e, p.advance gates = (q, some e) ↔ ∃ before g after, gates = before ++ g :: after ∧
      (∀ g' ∈ before, g'.isElementary = true ∧ g'.fits p.size = true) ∧ g.Bars p.size e ∧
      p.conjugate before = .ok q) ∧
    p.rows.run (gates.flatMap Rows.actions) =
      some ((p.advance gates).1.rows, (p.advance gates).2) ∧
    (p.advance gates).1.rows.x.length = p.size ∧ (p.advance gates).1.rows.z.length = p.size := by
  have size : (p.advance gates).1.letters.length = p.size := Pauli.size_through p gates
  refine ⟨?_, fun q e => Pauli.advance_eq_stopped_iff, Rows.run_gates p gates, ?_, ?_⟩
  · simp only [Pauli.advance_stops_iff, Gate.not_carries_iff]
  · rw [← size]
    exact List.length_map ..
  · rw [← size]
    exact List.length_map ..

/-- The H gate stays applied. The CX gate has its control but not its target, and the S gate is not
reached. -/
example : Pauli.advance ⟨[.X, .Y]⟩ [.h 0, .cx 0 2, .s 1] =
    (⟨[.Z, .Y]⟩, some (.qubitOutOfRange 2 2)) := by
  decide

end HadamardFree
