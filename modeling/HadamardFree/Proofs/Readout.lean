import HadamardFree.Proofs.Branches
import HadamardFree.Proofs.Weight

/-!
# Measuring the retired slots

The measurements at the end contract the retired slots with their outcomes, and the
logical qubits are read from the slots where they ended up:

* `Wave.collapse_eq`: what the measurements leave, before it is scaled;
* `Wave.weight_of_collapse`: if all outcomes are alike, each has probability one half;
* `State.readout_run`: the run of all measurements;
* `State.restrict?_ofWave`: the logical state.
-/

namespace HadamardFree

open Function (update)

namespace Wave

/-! ## Collapse -/

/-- Whether the slots have the given bits. -/
def agrees (found : List (Nat × Bool)) (u : Nat → Bool) : Bool :=
  found.all fun x => u x.1 == x.2

theorem agrees_cons (x : Nat × Bool) (found : List (Nat × Bool)) (u : Nat → Bool) :
    agrees (x :: found) u = (u x.1 == x.2 && agrees found u) :=
  List.all_cons

/-- The part of a wave where the slots have the given bits. -/
def keepAll (found : List (Nat × Bool)) : Wave → Wave :=
  diagonal fun u => if agrees found u then 1 else 0

/-- Measures slots in the X basis, one after the other, without scaling. -/
noncomputable def collapse : List (Nat × Bool) → Wave → Wave
  | [], φ => φ
  | x :: rest, φ => collapse rest (keep x.1 x.2 (hadamard x.1 φ))

theorem collapse_smul (found : List (Nat × Bool)) (c : ℂ) (φ : Wave) :
    collapse found (c • φ) = c • collapse found φ := by
  induction found generalizing φ with
  | nil => rfl
  | cons x found ih => rw [collapse, hadamard_smul, keep, diagonal_smul, ih, collapse, keep]

theorem contract_smul (found : List (Nat × Bool)) (c : ℂ) (φ : Wave) :
    contract found (c • φ) = c • contract found φ := by
  induction found generalizing φ with
  | nil => rfl
  | cons x found ih =>
    have first : contractOne (c • φ) x = c • contractOne φ x := by
      funext u
      simp only [contractOne, Pi.smul_apply, smul_eq_mul]
      ring
    rw [contract, List.foldl_cons, first]
    exact ih _

theorem keepAll_cons (x : Nat × Bool) (found : List (Nat × Bool)) (φ : Wave) :
    keepAll (x :: found) φ = keepAll found (keep x.1 x.2 φ) := by
  funext u
  simp only [keepAll, keep, diagonal, agrees_cons]
  cases u x.1 == x.2 <;> cases agrees found u <;> simp

theorem keep_hadamard (x : Nat × Bool) (φ : Wave) :
    keep x.1 x.2 (hadamard x.1 φ) = (Amplitude.sqrtHalf : ℂ) • keep x.1 x.2 (contractOne φ x) := by
  funext u
  by_cases same : u x.1 = x.2
  · simp only [keep, diagonal, hadamard, contractOne, same, Pi.smul_apply, smul_eq_mul]
    ring
  · simp [keep, diagonal, same]

/-- The measurements contract the slots and put them into the states found. -/
theorem collapse_eq {found : List (Nat × Bool)} (distinct : (found.map Prod.fst).Nodup)
    (φ : Wave) :
    collapse found φ =
      (Amplitude.sqrtHalf : ℂ) ^ found.length • keepAll found (contract found φ) := by
  induction found generalizing φ with
  | nil =>
    funext u
    simp [collapse, keepAll, diagonal, agrees, contract]
  | cons x found ih =>
    rw [List.map_cons, List.nodup_cons] at distinct
    have passes : contract found (keep x.1 x.2 (contractOne φ x)) =
        keep x.1 x.2 (contract found (contractOne φ x)) := by
      apply contract_diagonal
      intro y hy u b
      have apart : x.1 ≠ y.1 := fun same => distinct.1 (same ▸ List.mem_map_of_mem hy)
      simp only [Function.update_of_ne apart]
    rw [collapse, keep_hadamard, ih distinct.2, contract_smul, passes, keepAll, diagonal_smul,
      smul_smul, List.length_cons, pow_succ, keepAll_cons]
    rfl

/-! ## Probabilities -/

/-- If all outcomes of some measurements leave the same weight, each of them has its
share of the whole. -/
theorem weight_of_collapse {n : Nat} {slots : List Nat} (inside : ∀ k ∈ slots, k < n) {w : ℝ}
    {φ : Wave} (alike : ∀ outcomes : List Bool, outcomes.length = slots.length →
      weight n (collapse (slots.zip outcomes) φ) = w) :
    weight n φ = 2 ^ slots.length * w := by
  induction slots generalizing φ with
  | nil =>
    have only := alike [] rfl
    simpa [collapse] using only
  | cons k slots ih =>
    rw [List.forall_mem_cons] at inside
    have half : ∀ b, weight n (keep k b (hadamard k φ)) = 2 ^ slots.length * w := by
      intro b
      apply ih inside.2
      intro outcomes length
      exact alike (b :: outcomes) (congrArg (· + 1) length)
    rw [← weight_hadamard inside.1, weight_keep n k, half, half, List.length_cons, pow_succ]
    ring

theorem total_ite {f : (Nat → Bool) → ℝ} {c : (Nat → Bool) → Bool} {ks : List Nat}
    (h : ∀ k ∈ ks, ∀ v b, c (update v k b) = c v) (v : Nat → Bool) :
    total (fun v => if c v then f v else 0) ks v = if c v then total f ks v else 0 := by
  induction ks generalizing v with
  | nil => rfl
  | cons k ks ih =>
    rw [List.forall_mem_cons] at h
    rw [total, ih h.2, ih h.2, h.1, h.1, total]
    cases c v <;> simp

/-- Exactly one choice of bits agrees with those found. -/
theorem total_agrees {found : List (Nat × Bool)} (distinct : (found.map Prod.fst).Nodup) (w : ℝ)
    (v : Nat → Bool) :
    total (fun u => if agrees found u then w else 0) (found.map Prod.fst) v = w := by
  induction found generalizing v with
  | nil => simp [total, agrees]
  | cons x found ih =>
    rw [List.map_cons, List.nodup_cons] at distinct
    have split : ∀ b, total (fun u => if agrees (x :: found) u then w else 0)
        (found.map Prod.fst) (update v x.1 b) = if b == x.2 then w else 0 := by
      intro b
      have nested : (fun u => if agrees (x :: found) u then w else 0) =
          fun u => if u x.1 == x.2 then (if agrees found u then w else 0) else 0 := by
        funext u
        rw [agrees_cons]
        cases u x.1 == x.2 <;> simp
      have fixed : ∀ k ∈ found.map Prod.fst, ∀ (u : Nat → Bool) c,
          (update u k c x.1 == x.2) = (u x.1 == x.2) := by
        intro k hk u c
        have apart : x.1 ≠ k := fun same => distinct.1 (same ▸ hk)
        rw [Function.update_of_ne apart]
      rw [nested, total_ite fixed, ih distinct.2, Function.update_self]
    rw [List.map_cons, total, split, split]
    cases x.2 <;> simp

theorem total_placed {m : Placement} (distinct : m.slots.Nodup) {f : (Nat → Bool) → ℝ}
    (h : ∀ v w : Nat → Bool, (∀ k, k < m.size → v k = w k) → f v = f w) (u : Nat → Bool) :
    total (fun u => f fun k => u (m.slot k)) m.slots u =
      total f (List.range m.size) fun k => u (m.slot k) := by
  have listed : m.slots = (List.range m.size).map m.slot := by
    apply List.ext_getElem (by simp [Placement.size])
    intro k hk hk'
    simp [Placement.slot, List.getD_eq_getElem?_getD, hk]
  have run : ∀ ks : List Nat, (∀ k ∈ ks, k < m.size) → ∀ u : Nat → Bool,
      total (fun u => f fun k => u (m.slot k)) (ks.map m.slot) u =
        total f ks fun k => u (m.slot k) := by
    intro ks
    induction ks with
    | nil => exact fun _ u => rfl
    | cons j ks ih =>
      intro inside u
      rw [List.forall_mem_cons] at inside
      have moved : ∀ b, total f ks (fun k => update u (m.slot j) b (m.slot k)) =
          total f ks (update (fun k => u (m.slot k)) j b) := by
        intro b
        apply total_agree h
        intro k hk _
        by_cases same : k = j
        · subst same
          simp
        · have apart : m.slot k ≠ m.slot j :=
            fun e => same (Placement.slot_inj distinct hk inside.1 e)
          rw [Function.update_of_ne same, Function.update_of_ne apart]
      rw [List.map_cons, total, ih inside.2, ih inside.2, total, moved, moved]
  rw [listed]
  exact run _ (fun k hk => List.mem_range.mp hk) u

/-- A state read from its slots, with the other slots in a basis state, has the
weight of the state. -/
theorem weight_placed {m : Placement} {width : Nat} {found : List (Nat × Bool)}
    (partition : (found.map Prod.fst ++ m.slots).Perm (List.range width)) {ψ : Wave}
    (h : ψ.Local m.size) : weight width (keepAll found (placed m ψ)) = weight m.size ψ := by
  have nodup : (found.map Prod.fst ++ m.slots).Nodup := partition.nodup_iff.mpr List.nodup_range
  obtain ⟨distinct, slotsDistinct, apart⟩ := List.nodup_append.mp nodup
  have values : (fun u => Complex.normSq (keepAll found (placed m ψ) u)) = fun u =>
      if agrees found u then Complex.normSq (ψ fun k => u (m.slot k)) else 0 := by
    funext u
    cases agreed : agrees found u <;> simp [keepAll, diagonal, placed, agreed]
  have fixed : ∀ k ∈ m.slots, ∀ (u : Nat → Bool) b,
      agrees found (update u k b) = agrees found u := by
    intro k hk u b
    rw [Bool.eq_iff_iff]
    simp only [agrees, List.all_eq_true]
    apply forall₂_congr
    intro x hx
    have other : x.1 ≠ k := apart x.1 (List.mem_map_of_mem hx) k hk
    rw [Function.update_of_ne other]
  have looks : ∀ v w : Nat → Bool, (∀ k, k < m.size → v k = w k) →
      Complex.normSq (ψ v) = Complex.normSq (ψ w) := fun v w agree => by rw [h v w agree]
  have inner : ∀ u, total (fun u => if agrees found u then
      Complex.normSq (ψ fun k => u (m.slot k)) else 0) m.slots u =
        if agrees found u then weight m.size ψ else 0 := by
    intro u
    rw [total_ite fixed, total_placed slotsDistinct looks]
    congr 1
    apply total_agree looks
    intro k hk out
    exact absurd (List.mem_range.mpr hk) out
  rw [weight, values, ← total_perm partition, total_append, funext inner, total_agrees distinct]

end Wave

/-! ## The measurements of a circuit -/

namespace State

/-- The bits found, with those of the listed slots added. -/
def marked (found : Nat) : List (Nat × Bool) → Nat
  | [] => found
  | x :: rest => marked (if x.2 then found ||| 1 <<< x.1 else found) rest

theorem measure_of_half {n k : Nat} {φ : Wave} {b : Bool} (half : (φ.keep k b).weight n = 1 / 2) :
    (ofWave n φ).measure k b =
      (1 / 2, ofWave n ((Amplitude.sqrtHalf : ℂ)⁻¹ • φ.keep k b)) := by
  have likely : Amplitude.tiny ℂ < (φ.keep k b).weight n := by
    rw [half]
    change (1e-12 : ℝ) < 1 / 2
    norm_num
  have root : (Real.sqrt (1 / 2) : ℂ) = Amplitude.sqrtHalf := by
    rw [one_div, Real.sqrt_inv]
    rfl
  rw [measure_ofWave likely, half, root]

/-- An H gate and a measurement whose outcomes are equally likely. -/
theorem next_gadget {n : Nat} {g : Gadget} {outcomes : List Bool} {b : Bool} {φ : Wave}
    (inside : g.retired < n) (known : outcomes[g.id]? = some b)
    (half : ((φ.hadamard g.retired).keep g.retired b).weight n = 1 / 2) (found : Nat)
    (probabilities : List ℝ) :
    [Gate.h g.retired, .meas g.retired g.id].foldlM (Readout.next outcomes)
        ⟨ofWave n φ, found, probabilities⟩ =
      .ok ⟨ofWave n ((Amplitude.sqrtHalf : ℂ)⁻¹ • (φ.hadamard g.retired).keep g.retired b),
        if b then found ||| 1 <<< g.retired else found, probabilities ++ [1 / 2]⟩ := by
  have turned : (ofWave n φ).applyGate? (.h g.retired) =
      some (ofWave n (φ.hadamard g.retired)) :=
    applyGate?_ofWave φ (by simpa [Gate.fits, Gate.qubits] using inside) (by simp)
  have likely : ¬ Amplitude.less ℂ (1 / 2) (Amplitude.tiny ℂ) = true := by
    rw [less_iff]
    change ¬ (1 / 2 : ℝ) < 1e-12
    norm_num
  simp only [List.foldlM_cons, List.foldlM_nil, Readout.next, turned, known, measure_of_half half,
    bind, Except.bind, likely, pure, Except.pure]
  rfl

/-- **The readout.** If all outcomes of the measurements are alike, each of them has
probability one half, and the state is scaled accordingly. -/
theorem readout_run {n : Nat} {gadgets : List Gadget} {outcomes bs : List Bool}
    (inside : ∀ g ∈ gadgets, g.retired < n)
    (known : gadgets.map (fun g => outcomes[g.id]?) = bs.map some) {φ : Wave}
    (alike : ∀ cs : List Bool, cs.length = gadgets.length →
      (φ.collapse ((gadgets.map Gadget.retired).zip cs)).weight n = (1 / 2) ^ gadgets.length)
    (found : Nat) (probabilities : List ℝ) :
    (Gadget.readout gadgets).foldlM (Readout.next outcomes) ⟨ofWave n φ, found, probabilities⟩ =
      .ok ⟨ofWave n ((Amplitude.sqrtHalf : ℂ)⁻¹ ^ gadgets.length •
          φ.collapse ((gadgets.map Gadget.retired).zip bs)),
        marked found ((gadgets.map Gadget.retired).zip bs),
        probabilities ++ List.replicate gadgets.length (1 / 2)⟩ := by
  induction gadgets generalizing bs φ found probabilities with
  | nil => simp [Gadget.readout, Wave.collapse, marked, pure, Except.pure]
  | cons g gadgets ih =>
    rw [List.forall_mem_cons] at inside
    obtain ⟨b, bs, rfl⟩ : ∃ b cs, bs = b :: cs := by
      cases bs with
      | nil => cases known
      | cons b cs => exact ⟨b, cs, rfl⟩
    rw [List.map_cons, List.map_cons, List.cons.injEq] at known
    -- What is left after this measurement is shared by all later outcomes.
    have share : ∀ c (cs : List Bool), cs.length = gadgets.length →
        (((φ.hadamard g.retired).keep g.retired c).collapse
          ((gadgets.map Gadget.retired).zip cs)).weight n = (1 / 2) ^ gadgets.length * (1 / 2) := by
      intro c cs length
      rw [← pow_succ]
      exact alike (c :: cs) (congrArg (· + 1) length)
    have half : ((φ.hadamard g.retired).keep g.retired b).weight n = 1 / 2 := by
      have slots : ∀ k ∈ gadgets.map Gadget.retired, k < n := by
        simpa using inside.2
      have total := Wave.weight_of_collapse slots fun cs length =>
        share b cs (length.trans (List.length_map ..))
      rw [total, List.length_map, ← mul_assoc, ← mul_pow]
      norm_num
    have scaled : ∀ cs : List Bool, cs.length = gadgets.length →
        (((Amplitude.sqrtHalf : ℂ)⁻¹ • (φ.hadamard g.retired).keep g.retired b).collapse
          ((gadgets.map Gadget.retired).zip cs)).weight n = (1 / 2) ^ gadgets.length := by
      intro cs length
      have double : Complex.normSq (Amplitude.sqrtHalf : ℂ)⁻¹ = 2 := by
        rw [Complex.normSq_inv, Wave.normSq_sqrtHalf]
        norm_num
      rw [Wave.collapse_smul, Wave.weight_smul, share b cs length, double]
      ring
    have readout : Gadget.readout (g :: gadgets) =
        [Gate.h g.retired, .meas g.retired g.id] ++ Gadget.readout gadgets := rfl
    rw [readout, List.foldlM_append, next_gadget inside.1 known.1 half]
    refine (ih inside.2 known.2 scaled _ _).trans ?_
    rw [Wave.collapse_smul, smul_smul, ← pow_succ, List.append_assoc, List.singleton_append,
      List.length_cons, List.replicate_succ]
    rfl

end State

/-! ## Corrections -/

namespace Wave

/-- A lifted operator acts on the logical qubits and leaves the retired slots. -/
theorem pauli_placed {m : Placement} {width : Nat} {p q : Pauli} (lifts : m.Lifts width p q)
    (distinct : m.slots.Nodup) (inside : ∀ j ∈ m.slots, j < width) {found : List (Nat × Bool)}
    (apart : ∀ x ∈ found, x.1 ∉ m.slots) {ψ : Wave} (h : ψ.Local m.size) :
    pauli q (keepAll found (placed m ψ)) = keepAll found (placed m (pauli p ψ)) := by
  funext u
  have bits : ∀ k, k < m.size → shift q u (m.slot k) = shift p (fun j => u (m.slot j)) k := by
    intro k hk
    rw [shift, shift, lifts.live k hk]
  have fixed : agrees found (shift q u) = agrees found u := by
    rw [Bool.eq_iff_iff]
    simp only [agrees, List.all_eq_true]
    apply forall₂_congr
    intro x hx
    simp [shift, lifts.idle x.1 (apart x hx), Letter.x]
  have parities : zParity q (shift q u) = zParity p (shift p fun k => u (m.slot k)) := by
    have swapped : zParity q (shift q u) = parity width fun k => shift q u k && (q.letter k).z := by
      rw [zParity, lifts.wide]
      exact parity_congr fun k _ => Bool.and_comm ..
    rw [swapped, parity_lifts lifts distinct inside, zParity, lifts.size]
    apply parity_congr
    intro k hk
    rw [bits k hk, Bool.and_comm]
  have same : ψ (fun k => shift q u (m.slot k)) = ψ (shift p fun k => u (m.slot k)) :=
    h _ _ bits
  simp only [pauli, keepAll, diagonal, placed, fixed, parities, same]
  ring

theorem Local.correct {n : Nat} {ψ : Wave} (h : Local n ψ) {l : List (Pauli × Bool)}
    (size : ∀ x ∈ l, x.1.size ≤ n) : Local n (correct l ψ) := by
  induction l generalizing ψ with
  | nil => exact h
  | cons x l ih =>
    rw [List.forall_mem_cons] at size
    rw [Wave.correct]
    split
    · exact ih (h.pauli size.1) size.2
    · exact ih h size.2

theorem correct_placed {m : Placement} {width : Nat} {ps qs : List Pauli}
    (lifts : List.Forall₂ (m.Lifts width) ps qs) (distinct : m.slots.Nodup)
    (inside : ∀ j ∈ m.slots, j < width) {found : List (Nat × Bool)}
    (apart : ∀ x ∈ found, x.1 ∉ m.slots) (outcomes : List Bool) {ψ : Wave}
    (h : ψ.Local m.size) :
    correct (qs.zip outcomes) (keepAll found (placed m ψ)) =
      keepAll found (placed m (correct (ps.zip outcomes) ψ)) := by
  induction lifts generalizing outcomes ψ with
  | nil => rfl
  | @cons p q ps qs first rest ih =>
    cases outcomes with
    | nil => rfl
    | cons b outcomes =>
      rw [List.zip_cons_cons, List.zip_cons_cons, correct, correct]
      cases b with
      | false => exact ih outcomes h
      | true =>
        rw [if_pos rfl, if_pos rfl, pauli_placed first distinct inside apart h]
        exact ih outcomes (h.pauli (Nat.le_of_eq first.size))

end Wave

namespace State

theorem applyCorrections?_ofWave {n : Nat} {l : List (Pauli × Bool)}
    (size : ∀ x ∈ l, x.1.size ≤ n) (φ : Wave) :
    (ofWave n φ).applyCorrections? l = some (ofWave n (φ.correct l)) := by
  induction l generalizing φ with
  | nil => rfl
  | cons x l ih =>
    obtain ⟨p, b⟩ := x
    rw [List.forall_mem_cons] at size
    cases b with
    | false => exact ih size.2 φ
    | true =>
      rw [applyCorrections?, if_pos rfl, applyPauli?_ofWave φ size.1]
      exact ih size.2 (φ.pauli p)

/-! ## Reading the logical qubits -/

theorem testBit_or_shift (i j k : Nat) :
    (i ||| 1 <<< j).testBit k = (i.testBit k || decide (k = j)) := by
  rw [Nat.testBit_or]
  congr 1
  rw [Nat.one_shiftLeft, Nat.testBit_two_pow]
  simp [eq_comm]

theorem testBit_marked {k : Nat} (found : Nat) (l : List (Nat × Bool)) :
    (marked found l).testBit k = (found.testBit k || l.any fun x => x.2 && decide (k = x.1)) := by
  induction l generalizing found with
  | nil => simp [marked]
  | cons x l ih =>
    rw [marked, ih, List.any_cons]
    cases x.2 with
    | false => simp
    | true => rw [if_pos rfl, testBit_or_shift, Bool.true_and, Bool.or_assoc]

theorem testBit_marked_of_mem {found : List (Nat × Bool)} (distinct : (found.map Prod.fst).Nodup)
    {x : Nat × Bool} (hx : x ∈ found) : (marked 0 found).testBit x.1 = x.2 := by
  rw [testBit_marked, Nat.zero_testBit, Bool.false_or, Bool.eq_iff_iff, List.any_eq_true]
  constructor
  · rintro ⟨y, hy, set⟩
    simp only [Bool.and_eq_true, decide_eq_true_eq] at set
    have same : x = y := List.inj_on_of_nodup_map distinct hx hy set.2
    exact same ▸ set.1
  · intro set
    exact ⟨x, hx, by simp [set]⟩

theorem testBit_marked_of_not_mem {found : List (Nat × Bool)} {k : Nat}
    (hk : k ∉ found.map Prod.fst) : (marked 0 found).testBit k = false := by
  rw [testBit_marked, Nat.zero_testBit, Bool.false_or, List.any_eq_false]
  intro x hx
  have other : k ≠ x.1 := fun same => hk (same ▸ List.mem_map_of_mem hx)
  simp [other]

/-- Bits outside the slots are those that are fixed. -/
theorem testBit_spread_of_not_mem {slots : List Nat} {k : Nat} (h : k ∉ slots) (fixed j : Nat) :
    (spread fixed slots j).testBit k = fixed.testBit k := by
  induction slots generalizing fixed j with
  | nil => rfl
  | cons slot slots ih =>
    rw [List.mem_cons, not_or] at h
    rw [spread, ih h.2]
    cases j.testBit 0 with
    | false => simp
    | true => rw [if_pos rfl, testBit_or_shift, decide_eq_false h.1, Bool.or_false]

/-- Each slot gets its own bit. -/
theorem testBit_spread_slot {slots : List Nat} (distinct : slots.Nodup) {fixed : Nat}
    (free : ∀ slot ∈ slots, fixed.testBit slot = false) {k : Nat} (hk : k < slots.length) (j : Nat) :
    (spread fixed slots j).testBit (slots.getD k k) = j.testBit k := by
  induction slots generalizing fixed j k with
  | nil => cases hk
  | cons slot slots ih =>
    rw [List.nodup_cons] at distinct
    rw [List.forall_mem_cons] at free
    rw [spread]
    cases k with
    | zero =>
      rw [List.getD_cons_zero, testBit_spread_of_not_mem distinct.1]
      cases j.testBit 0 with
      | false => simpa using free.1
      | true => rw [if_pos rfl, testBit_or_shift, decide_eq_true rfl, Bool.or_true]
    | succ k =>
      have inside : k < slots.length := Nat.lt_of_succ_lt_succ hk
      have entry : (slot :: slots).getD (k + 1) (k + 1) = slots.getD k k := by
        simp [List.getD_eq_getElem?_getD, inside]
      rw [entry, ih distinct.2 ?_ inside, Nat.testBit_succ]
      intro other hother
      have apart : other ≠ slot := fun same => distinct.1 (same ▸ hother)
      cases j.testBit 0 with
      | false => simpa using free.2 other hother
      | true => rw [if_pos rfl, testBit_or_shift, free.2 other hother, decide_eq_false apart]; rfl

/-- The logical state is read from its slots, where the others are as found. -/
theorem restrict?_ofWave {m : Placement} {width : Nat} {found : List (Nat × Bool)}
    (partition : (found.map Prod.fst ++ m.slots).Perm (List.range width)) {ψ : Wave}
    (h : ψ.Local m.size) :
    (ofWave width ((ψ.placed m).keepAll found)).restrict? m.slots (marked 0 found) =
      some (ofWave m.size ψ) := by
  have nodup : (found.map Prod.fst ++ m.slots).Nodup := partition.nodup_iff.mpr List.nodup_range
  obtain ⟨foundDistinct, distinct, apart⟩ := List.nodup_append.mp nodup
  have inside : ∀ slot ∈ m.slots, slot < width := fun slot hs =>
    List.mem_range.mp (partition.mem_iff.mp (List.mem_append_right _ hs))
  have foundInside : ∀ x ∈ found, x.1 < width := fun x hx =>
    List.mem_range.mp (partition.mem_iff.mp (List.mem_append_left _ (List.mem_map_of_mem hx)))
  have beyond : ∀ k, width ≤ k → (marked 0 found).testBit k = false := by
    intro k hk
    apply testBit_marked_of_not_mem
    intro old
    obtain ⟨x, hx, rfl⟩ := List.mem_map.mp old
    exact Nat.not_lt.mpr hk (foundInside x hx)
  have slotsFree : ∀ slot ∈ m.slots, (marked 0 found).testBit slot = false :=
    fun slot hs => testBit_marked_of_not_mem fun old => apart slot old slot hs rfl
  rw [restrict?, if_pos ⟨rfl, inside, lt_shift_iff.mpr beyond⟩]
  congr 1
  refine eq_ofWave (n := m.size) rfl ?_
  intro j hj
  have small : spread (marked 0 found) m.slots j < 1 <<< width := by
    rw [lt_shift_iff]
    intro k hk
    rw [testBit_spread_of_not_mem fun hs => Nat.not_lt.mpr hk (inside k hs)]
    exact beyond k hk
  have agreed : Wave.agrees found (spread (marked 0 found) m.slots j).testBit = true := by
    rw [Wave.agrees, List.all_eq_true]
    intro x hx
    rw [testBit_spread_of_not_mem fun hs => apart x.1 (List.mem_map_of_mem hx) x.1 hs rfl,
      testBit_marked_of_mem foundDistinct hx]
    exact beq_self_eq_true _
  have read : ψ (fun k => (spread (marked 0 found) m.slots j).testBit (m.slot k)) = ψ j.testBit := by
    apply h
    intro k hk
    exact testBit_spread_slot distinct slotsFree hk j
  rw [amp_ofFn, if_pos (show j < 1 <<< m.slots.length from hj), amp_ofWave _ small]
  simp only [Wave.keepAll, Wave.diagonal, agreed, if_true, mul_one, Wave.placed, read]

end State

end HadamardFree
