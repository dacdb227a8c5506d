import HadamardFree.Proofs.Wave
import Mathlib.Data.Nat.Bitwise

/-!
# Operations in place

An operation changes the amplitudes of a state where they stand, one visit of a basis state after
the other, so a visit may find what an earlier one has written. What comes out is nevertheless given
in terms of the old amplitudes.

* `State.put`, `Pass.visit`, `Pass.run`: one amplitude written, one visit, and a whole pass;
* `Pass.site`, `Pass.value`: the visit that writes an amplitude, and what it writes;
* `Pass.amp_visit`: a visit writes the amplitudes of its own site and no others;
* `Pass.amp_run`: so every amplitude is written once, from old amplitudes;
* `Operation.passes`, `State.apply?_eq_sweep`: the passes of an operation do what the operation
  does.
-/

namespace HadamardFree

variable {K R : Type}

/-! ## Visits -/

/-- Writes the amplitude of basis state `i`, if there is one. -/
def State.put (s : State K) (i : Nat) (a : K) : State K :=
  ⟨s.qubits, s.amps.setIfInBounds i a, by rw [Array.size_setIfInBounds, s.size_amps]⟩

/-- Writes the amplitudes of `i` and `j` in terms of both of them. -/
def State.putPair [Zero K] (s : State K) (i j : Nat) (act : K → K → K × K) : State K :=
  let (a, b) := act (s.amp i) (s.amp j)
  (s.put i a).put j b

/-- A walk over all basis states in order. -/
inductive Pass (K : Type) where
  /-- Multiplies every amplitude by a factor of its own. -/
  | factors (f : Nat → K)
  /-- Replaces the amplitudes of basis states that differ in qubit `k` only. The one where the bit
  is clear comes first, and decides whether the pair is looked at. -/
  | pairs (k : Nat) (meets : Nat → Bool) (act : K → K → K × K)

namespace Pass

/-- The qubit that pairs differ in has to exist. -/
def Fits (n : Nat) : Pass K → Prop
  | factors _ => True
  | pairs k _ _ => k < n

/-- The basis state whose visit writes the amplitude of `i`. -/
def site (i : Nat) : Pass K → Nat
  | factors _ => i
  | pairs k _ _ => if i.testBit k then i ^^^ 1 <<< k else i

variable [Zero K] [Mul K]

/-- What a pass does when it comes to basis state `i`. -/
def visit (p : Pass K) (s : State K) (i : Nat) : State K :=
  match p with
  | factors f => s.put i (s.amp i * f i)
  | pairs k meets act =>
    if meets i && !i.testBit k then s.putPair i (i ||| 1 <<< k) act else s

def run (p : Pass K) (s : State K) : State K :=
  (List.range (1 <<< s.qubits)).foldl p.visit s

/-- The new amplitude of `i` in terms of old ones. -/
def value (s : State K) (i : Nat) : Pass K → K
  | factors f => s.amp i * f i
  | pairs k meets act =>
    let j := i ^^^ 1 <<< k
    if i.testBit k then
      if meets j then (act (s.amp j) (s.amp i)).2 else s.amp i
    else
      if meets i then (act (s.amp i) (s.amp j)).1 else s.amp i

end Pass

/-- Passes over a state one after the other. -/
def State.sweep [Zero K] [Mul K] (s : State K) (passes : List (Pass K)) : State K :=
  passes.foldl (fun s p => p.run s) s

@[simp] theorem State.qubits_put (s : State K) (i : Nat) (a : K) : (s.put i a).qubits = s.qubits :=
  rfl

theorem State.amp_put [Zero K] (s : State K) {i : Nat} (hi : i < 1 <<< s.qubits) (a : K) (j : Nat) :
    (s.put i a).amp j = if j = i then a else s.amp j := by
  have inside : i < s.amps.size := by rwa [s.size_amps]
  by_cases same : j = i
  · subst same
    simp [put, amp, Array.getD_eq_getD_getElem?, inside]
  · simp [put, amp, Array.getD_eq_getD_getElem?, same, Ne.symm same]

theorem State.amp_putPair [Zero K] (s : State K) {i j : Nat} (hi : i < 1 <<< s.qubits)
    (hj : j < 1 <<< s.qubits) (act : K → K → K × K) (l : Nat) :
    (s.putPair i j act).amp l =
      if l = j then (act (s.amp i) (s.amp j)).2
      else if l = i then (act (s.amp i) (s.amp j)).1
      else s.amp l := by
  rw [putPair, amp_put _ (by simpa using hj), amp_put s hi]

/-! ## Pairs of basis states -/

theorem or_shift_eq_xor {i k : Nat} (clear : i.testBit k = false) :
    i ||| 1 <<< k = i ^^^ 1 <<< k := by
  apply Nat.eq_of_testBit_eq
  intro j
  rw [Nat.testBit_or, Nat.testBit_xor, Nat.one_shiftLeft, Nat.testBit_two_pow]
  by_cases same : k = j
  · subst same
    simp [clear]
  · simp [same]

theorem testBit_xor_shift_self (i k : Nat) : (i ^^^ 1 <<< k).testBit k = !i.testBit k := by
  rw [State.testBit_xor_shift, Function.update_self]

namespace Pass

section Sites
variable {k : Nat} {meets : Nat → Bool} {act : K → K → K × K}

theorem testBit_site (i : Nat) : ((pairs k meets act).site i).testBit k = false := by
  rw [site]
  split
  · rename_i bit
    rw [testBit_xor_shift_self, bit, Bool.not_true]
  · rename_i bit
    exact Bool.eq_false_iff.mpr bit

/-- Two amplitudes are written in a visit. -/
theorem site_eq_iff {m : Nat} (clear : m.testBit k = false) (i : Nat) :
    (pairs k meets act).site i = m ↔ i = m ∨ i = m ^^^ 1 <<< k := by
  constructor
  · rintro rfl
    rw [site]
    split
    · exact .inr (Nat.xor_xor_cancel_right i _).symm
    · exact .inl rfl
  · rintro (rfl | rfl)
    · rw [site, clear, if_neg Bool.false_ne_true]
    · rw [site, testBit_xor_shift_self, clear, Bool.not_false, if_pos rfl,
        Nat.xor_xor_cancel_right]

theorem site_partner (i : Nat) :
    (pairs k meets act).site (i ^^^ 1 <<< k) = (pairs k meets act).site i := by
  rw [site, site, testBit_xor_shift_self, Nat.xor_xor_cancel_right]
  cases i.testBit k <;> rfl

end Sites

theorem site_lt {n : Nat} {p : Pass K} (fits : p.Fits n) {i : Nat} (hi : i < 1 <<< n) :
    p.site i < 1 <<< n := by
  cases p with
  | factors f => exact hi
  | pairs k meets act =>
    rw [site]
    split
    · exact State.xor_shift_lt hi fits
    · exact hi

variable [Zero K] [Mul K]

@[simp] theorem qubits_visit (p : Pass K) (s : State K) (i : Nat) :
    (p.visit s i).qubits = s.qubits := by
  cases p with
  | factors f => rfl
  | pairs k meets act =>
    rw [visit]
    split <;> rfl

/-- A visit writes the amplitudes of its own site, and no others. -/
theorem amp_visit {s : State K} {p : Pass K} (fits : p.Fits s.qubits) {m : Nat}
    (hm : m < 1 <<< s.qubits) (i : Nat) :
    (p.visit s m).amp i = if p.site i = m then p.value s i else s.amp i := by
  cases p with
  | factors f =>
    rw [visit, State.amp_put s hm]
    by_cases same : i = m <;> simp [site, value, same]
  | pairs k meets act =>
    by_cases bit : m.testBit k = true
    · -- Nothing is written, since no site has the bit set.
      have other : (pairs k meets act).site i ≠ m := by
        rintro rfl
        rw [testBit_site] at bit
        cases bit
      simp [visit, bit, other]
    · have clear : m.testBit k = false := Bool.eq_false_iff.mpr bit
      have partner : m ^^^ 1 <<< k < 1 <<< s.qubits := State.xor_shift_lt hm fits
      have own : (m ^^^ 1 <<< k).testBit k = true := by
        rw [testBit_xor_shift_self, clear, Bool.not_false]
      have apart : m ≠ m ^^^ 1 <<< k := by
        intro same
        rw [← same, clear] at own
        cases own
      by_cases second : i = m ^^^ 1 <<< k
      · subst second
        cases met : meets m <;>
          simp [visit, value, met, clear, own, or_shift_eq_xor clear, site_eq_iff clear,
            State.amp_putPair s hm partner]
      · by_cases first : i = m
        · subst first
          cases met : meets i <;>
            simp [visit, value, met, clear, apart, or_shift_eq_xor clear, site_eq_iff clear,
              State.amp_putPair s hm partner]
        · cases met : meets m <;>
            simp [visit, met, clear, first, second, or_shift_eq_xor clear, site_eq_iff clear,
              State.amp_putPair s hm partner]

/-- What is written in a visit comes from amplitudes of the same site. -/
theorem value_congr {s t : State K} {p : Pass K} {i : Nat}
    (agree : ∀ j, p.site j = p.site i → s.amp j = t.amp j) : p.value s i = p.value t i := by
  cases p with
  | factors f => simp only [value, agree i rfl]
  | pairs k meets act => simp only [value, agree i rfl, agree _ (site_partner i)]

@[simp] theorem qubits_foldl_visit (s : State K) (p : Pass K) (visits : List Nat) :
    (visits.foldl p.visit s).qubits = s.qubits := by
  induction visits generalizing s with
  | nil => rfl
  | cons i visits ih => rw [List.foldl_cons, ih, qubits_visit]

/-- After the first `m` visits the amplitudes of their sites are new and all others are old. -/
theorem amp_foldl_visit {s : State K} {p : Pass K} (fits : p.Fits s.qubits) {m : Nat}
    (hm : m ≤ 1 <<< s.qubits) (i : Nat) :
    ((List.range m).foldl p.visit s).amp i = if p.site i < m then p.value s i else s.amp i := by
  induction m generalizing i with
  | zero => simp
  | succ m ih =>
    have before := ih (Nat.le_of_succ_le hm)
    rw [List.range_succ, List.foldl_append, List.foldl_cons, List.foldl_nil,
      amp_visit (by rwa [qubits_foldl_visit]) (by rw [qubits_foldl_visit]; omega)]
    by_cases now : p.site i = m
    · -- Neither of the amplitudes that are read has been overwritten.
      have old : p.value ((List.range m).foldl p.visit s) i = p.value s i := by
        apply value_congr
        intro j same
        rw [before, if_neg (by omega)]
      rw [if_pos now, if_pos (by omega), old]
    · rw [if_neg now, before]
      by_cases done : p.site i < m
      · rw [if_pos done, if_pos (by omega)]
      · rw [if_neg done, if_neg (by omega)]

/-- A pass gives every amplitude its new value once. -/
theorem amp_run {s : State K} {p : Pass K} (fits : p.Fits s.qubits) {i : Nat}
    (hi : i < 1 <<< s.qubits) : (p.run s).amp i = p.value s i := by
  rw [run, amp_foldl_visit fits (Nat.le_refl _), if_pos (site_lt fits hi)]

@[simp] theorem qubits_run (p : Pass K) (s : State K) : (p.run s).qubits = s.qubits :=
  qubits_foldl_visit ..

/-- What a pass leaves is known from its values. -/
theorem run_eq {s t : State K} {p : Pass K} (fits : p.Fits s.qubits) (qubits : t.qubits = s.qubits)
    (values : ∀ i, i < 1 <<< s.qubits → t.amp i = p.value s i) : t = p.run s := by
  refine State.ext_amp (by rw [qubits, qubits_run]) ?_
  intro i hi
  rw [qubits] at hi
  rw [values i hi, amp_run fits hi]

end Pass

/-! ## Passes of an operation -/

/-- What can be done to a state without a measurement. -/
inductive Operation (R : Type) where
  | gate (g : Gate)
  | rotation (mask : Nat) (angle : R)
  | pauli (p : Pauli)

/-- A gate has its qubits in the state and is not a measurement, and an operator is not longer than
the state. A rotation may name qubits that do not exist. -/
def Operation.Fits (n : Nat) : Operation R → Prop
  | gate g => g.fits n = true ∧ ∀ k id, g ≠ .meas k id
  | rotation _ _ => True
  | pauli p => p.size ≤ n

section
variable [Zero K] [One K] [Add K] [Sub K] [Neg K] [Mul K] [Neg R] [Amplitude K R]

def State.apply? (s : State K) : Operation R → Option (State K)
  | .gate g => s.applyGate? g
  | .rotation mask angle => some (s.rotate mask angle)
  | .pauli p => s.applyPauli? p

def State.applyAll? (s : State K) (ops : List (Operation R)) : Option (State K) :=
  ops.foldlM State.apply? s

namespace Pass

/-- Exchanges the amplitudes of basis states that differ in qubit `k` only. -/
def swap (k : Nat) (meets : Nat → Bool) : Pass K :=
  pairs k meets fun a b => (b, a)

def ofGate : Gate → List (Pass K)
  | .h k =>
    [pairs k (fun _ => true) fun a b =>
      ((a + b) * Amplitude.sqrtHalf, (a - b) * Amplitude.sqrtHalf)]
  | .s k => [factors fun i => if i.testBit k then Amplitude.unit else 1]
  | .cx c t => [swap t (·.testBit c)]
  | .cz a b => [factors fun i => if i.testBit a && i.testBit b then -1 else 1]
  | .meas _ _ => []

/-- The Z part of a letter on qubit `k` comes before the X part. -/
def ofLetter (k : Nat) (a : Letter) : List (Pass K) :=
  (if a.z then [factors fun i => if i.testBit k then -1 else 1] else []) ++
    if a.x then [swap k fun _ => true] else []

def ofLetters (k : Nat) : List Letter → List (Pass K)
  | [] => []
  | a :: rest => ofLetter k a ++ ofLetters (k + 1) rest

end Pass

def Operation.passes (n : Nat) : Operation R → List (Pass K)
  | gate g => Pass.ofGate g
  | rotation mask angle =>
    [.factors fun i =>
      Amplitude.cis (Amplitude.half K (if State.oddOverlap n i mask then angle else -angle))]
  | pauli p => Pass.ofLetters 0 p.letters

end

namespace State

section
variable [Zero K] [Mul K]

theorem diagonal_eq_run (s : State K) (f : Nat → K) : s.diagonal f = (Pass.factors f).run s :=
  Pass.run_eq trivial rfl fun _ hi => amp_diagonal s f hi

theorem flip_eq_run (s : State K) {k : Nat} (hk : k < s.qubits) :
    s.flip k = (Pass.swap k fun _ => true).run s := by
  refine Pass.run_eq hk rfl ?_
  intro i hi
  rw [amp_flip s k hi]
  cases bit : i.testBit k <;> simp [Pass.swap, Pass.value, bit]

theorem flipIf_eq_run (s : State K) {c t : Nat} (ht : t < s.qubits) (distinct : c ≠ t) :
    s.flipIf c t = (Pass.swap t (·.testBit c)).run s := by
  refine Pass.run_eq ht rfl ?_
  intro i hi
  rw [amp_flipIf s c t hi]
  have same : (i ^^^ 1 <<< t).testBit c = i.testBit c := by
    rw [testBit_xor_shift, Function.update_of_ne distinct]
  cases bit : i.testBit t <;> simp [Pass.swap, Pass.value, bit, same]

/-- No basis state has the same qubit both set and clear. -/
theorem eq_run_swap_self (s : State K) {k : Nat} (hk : k < s.qubits) :
    s = (Pass.swap k (·.testBit k)).run s := by
  refine Pass.run_eq hk rfl ?_
  intro i hi
  cases bit : i.testBit k <;> simp [Pass.swap, Pass.value, bit]

theorem hadamard_eq_run [Add K] [Sub K] [Amplitude K R] (s : State K) {k : Nat}
    (hk : k < s.qubits) :
    s.hadamard k = (Pass.pairs k (fun _ => true) fun a b =>
      ((a + b) * Amplitude.sqrtHalf, (a - b) * Amplitude.sqrtHalf)).run s := by
  refine Pass.run_eq hk rfl ?_
  intro i hi
  rw [amp_hadamard s k hi]
  cases bit : i.testBit k <;> simp [Pass.value, bit]

theorem sweep_append (s : State K) (passes more : List (Pass K)) :
    s.sweep (passes ++ more) = (s.sweep passes).sweep more :=
  List.foldl_append

@[simp] theorem qubits_sweep (s : State K) (passes : List (Pass K)) :
    (s.sweep passes).qubits = s.qubits := by
  induction passes generalizing s with
  | nil => rfl
  | cons p passes ih => exact (ih (p.run s)).trans (p.qubits_run s)

end

section
variable [Zero K] [One K] [Neg K] [Mul K]

theorem applyLetter?_eq_sweep (s : State K) {k : Nat} (hk : k < s.qubits) (a : Letter) :
    s.applyLetter? k a = some (s.sweep (Pass.ofLetter k a)) := by
  have turned : (if a.z then s.phaseAt k (-1) else s) =
      s.sweep (if a.z then [.factors fun i => if i.testBit k then -1 else 1] else []) := by
    split
    · exact diagonal_eq_run s _
    · rfl
  rw [applyLetter?, turned, Pass.ofLetter, sweep_append]
  cases a.x with
  | true =>
    rw [if_pos rfl, if_pos rfl, if_pos hk, flip_eq_run _ (by rwa [qubits_sweep])]
    rfl
  | false => rfl

theorem applyLetters?_eq_sweep (s : State K) {k : Nat} {letters : List Letter}
    (inside : k + letters.length ≤ s.qubits) :
    s.applyLetters? k letters = some (s.sweep (Pass.ofLetters k letters)) := by
  induction letters generalizing s k with
  | nil => rfl
  | cons a rest ih =>
    rw [List.length_cons] at inside
    rw [applyLetters?, applyLetter?_eq_sweep s (by omega), Pass.ofLetters, sweep_append]
    exact ih _ (by rw [qubits_sweep]; omega)

end

section
variable [Zero K] [One K] [Add K] [Sub K] [Neg K] [Mul K] [Amplitude K R]

theorem applyGate?_eq_sweep (s : State K) {g : Gate} (fits : g.fits s.qubits = true)
    (unitary : ∀ k id, g ≠ .meas k id) : s.applyGate? g = some (s.sweep (Pass.ofGate g)) := by
  have inside := Gate.fits_iff.mp fits
  cases g with
  | h k =>
    have hk : k < s.qubits := inside k (by simp [Gate.qubits])
    rw [applyGate?, if_pos hk, hadamard_eq_run s hk]
    rfl
  | s k => exact congrArg some (diagonal_eq_run s _)
  | cx c t =>
    have hc : c < s.qubits := inside c (by simp [Gate.qubits])
    have ht : t < s.qubits := inside t (by simp [Gate.qubits])
    by_cases same : c = t
    · subst same
      rw [applyGate?, if_pos (.inl rfl)]
      exact congrArg some (eq_run_swap_self s ht)
    · have moves : ¬ (c = t ∨ s.qubits ≤ c) := by omega
      rw [applyGate?, if_neg moves, if_pos ht, flipIf_eq_run s ht same]
      rfl
  | cz a b => exact congrArg some (diagonal_eq_run s _)
  | meas k id => exact absurd rfl (unitary k id)

/-- The passes of an operation do to a state what the operation does. -/
theorem apply?_eq_sweep [Neg R] (s : State K) {op : Operation R} (fits : op.Fits s.qubits) :
    s.apply? op = some (s.sweep (op.passes s.qubits)) := by
  cases op with
  | gate g => exact applyGate?_eq_sweep s fits.1 fits.2
  | rotation mask angle => exact congrArg some (diagonal_eq_run s _)
  | pauli p => exact applyLetters?_eq_sweep s (by rw [Nat.zero_add]; exact fits)

theorem applyAll?_eq_sweep [Neg R] {n : Nat} (s : State K) (qubits : s.qubits = n)
    {ops : List (Operation R)} (fits : ∀ op ∈ ops, op.Fits n) :
    s.applyAll? ops = some (s.sweep (ops.flatMap (·.passes n))) := by
  induction ops generalizing s with
  | nil => rfl
  | cons op ops ih =>
    rw [List.forall_mem_cons] at fits
    subst qubits
    rw [applyAll?, List.foldlM_cons, apply?_eq_sweep s fits.1, List.flatMap_cons, sweep_append]
    exact ih _ (qubits_sweep ..) fits.2

end

end State

end HadamardFree
