import HadamardFree.Pauli.Conjugation
import HadamardFree.Proofs.Parity
import HadamardFree.Register.Basic

/-!
# The slots of a register

No slot is lost and none is used twice:

* `Register.Sound`: the retired slots and the slots of the qubits are all slots
  handed out so far, each once; `Register.Sound.moved` keeps it through a move,
  so `Register.Reachable.sound` has it for every register that can come up;
* `Placement.Lifts`: an operator on the register has the letters of an operator
  on the qubits in their slots, and the identity everywhere else;
* `Placement.Lifts.commutes_eq`: lifting keeps commutation;
* `scattering_keeps_commutation`: the same for operators as they are scattered, where the letters of
  the register have to be laid out first.
-/

namespace HadamardFree

namespace Placement

theorem get?_eq_slot {m : Placement} {k : Nat} (h : k < m.size) : m.get? k = some (m.slot k) := by
  simp [get?, slot, List.getD_eq_getElem?_getD, List.getElem?_eq_getElem h]

theorem slot_home (n k : Nat) : (home n).slot k = k := by
  by_cases hk : k < n <;> simp [home, slot, List.getD_eq_getElem?_getD, hk]

theorem slot_mem {m : Placement} {k : Nat} (h : k < m.size) : m.slot k ∈ m.slots :=
  List.mem_of_getElem? (get?_eq_slot h)

theorem exists_of_mem {m : Placement} {j : Nat} (h : j ∈ m.slots) :
    ∃ k, k < m.size ∧ m.slot k = j := by
  obtain ⟨k, hk, rfl⟩ := List.getElem_of_mem h
  exact ⟨k, hk, by simp [slot, List.getD_eq_getElem?_getD, hk]⟩

theorem slot_inj {m : Placement} (distinct : m.slots.Nodup) {k j : Nat} (hk : k < m.size)
    (hj : j < m.size) (h : m.slot k = m.slot j) : k = j := by
  apply (List.getElem?_inj hk distinct).mp
  have same : m.get? k = m.get? j := by rw [get?_eq_slot hk, get?_eq_slot hj, h]
  exact same

theorem assign_perm {m : Placement} {k : Nat} (h : k < m.size) (fresh : Nat) :
    (m.slot k :: (m.assign k fresh).slots).Perm (fresh :: m.slots) := by
  have held : m.slots[k] = m.slot k := by
    apply Option.some.inj
    rw [← List.getElem?_eq_getElem h]
    exact get?_eq_slot h
  have others : (m.slot k :: m.slots.eraseIdx k).Perm m.slots := by
    rw [← held]
    exact List.getElem_cons_eraseIdx_perm h
  calc m.slot k :: m.slots.set k fresh
    _ |>.Perm (m.slot k :: fresh :: m.slots.eraseIdx k) :=
      (List.set_perm_cons_eraseIdx h fresh).cons _
    _ |>.Perm (fresh :: m.slot k :: m.slots.eraseIdx k) := List.Perm.swap ..
    _ |>.Perm (fresh :: m.slots) := others.cons _

end Placement

/-! ## Registers -/

namespace Register

/-- The slots handed out so far are those in `retired` and those of the qubits,
each listed once. -/
structure Sound (retired : List Nat) (r : Register) : Prop where
  partition : (retired ++ r.placement.slots).Perm (List.range r.allocated)
  room : r.allocated ≤ r.width

/-- The register after qubit `k` has moved to the next fresh slot. -/
def moved (r : Register) (k : Nat) : Register :=
  { r with placement := r.placement.assign k r.allocated, allocated := r.allocated + 1 }

theorem moveQubit_eq {r : Register} {k : Nat} (hk : k < r.size) (room : r.allocated < r.width) :
    r.moveQubit k = .ok (⟨k, r.placement.slot k, r.allocated⟩, r.moved k) := by
  simp [moveQubit, room, Placement.get?_eq_slot hk, moved]

@[simp] theorem size_moved (r : Register) (k : Nat) : (r.moved k).size = r.size :=
  Placement.size_assign ..

@[simp] theorem width_moved (r : Register) (k : Nat) : (r.moved k).width = r.width := rfl

@[simp] theorem allocated_moved (r : Register) (k : Nat) :
    (r.moved k).allocated = r.allocated + 1 := rfl

@[simp] theorem size_newOutcome (r : Register) : r.newOutcome.2.size = r.size := rfl

theorem start_sound {n width : Nat} (h : n ≤ width) : (start n width).Sound [] :=
  ⟨by simp [start, Placement.home], h⟩

namespace Sound

variable {retired : List Nat} {r : Register}

theorem nodup (h : r.Sound retired) : (retired ++ r.placement.slots).Nodup :=
  h.partition.nodup_iff.mpr List.nodup_range

theorem slots_nodup (h : r.Sound retired) : r.placement.slots.Nodup :=
  (List.nodup_append.mp h.nodup).2.1

theorem mem_iff (h : r.Sound retired) {j : Nat} :
    j ∈ retired ∨ j ∈ r.placement.slots ↔ j < r.allocated := by
  rw [← List.mem_append, h.partition.mem_iff, List.mem_range]

theorem slot_lt_allocated (h : r.Sound retired) {j : Nat} (hj : j ∈ r.placement.slots) :
    j < r.allocated :=
  h.mem_iff.mp (.inr hj)

theorem slot_lt (h : r.Sound retired) {j : Nat} (hj : j ∈ r.placement.slots) : j < r.width :=
  Nat.lt_of_lt_of_le (h.slot_lt_allocated hj) h.room

theorem not_mem_retired (h : r.Sound retired) {j : Nat} (hj : j ∈ r.placement.slots) :
    j ∉ retired := by
  intro old
  exact (List.nodup_append.mp h.nodup).2.2 j old j hj rfl

theorem fresh_not_mem (h : r.Sound retired) : r.allocated ∉ r.placement.slots := by
  intro hj
  exact Nat.lt_irrefl _ (h.slot_lt_allocated hj)

/-- A move retires the slot that the qubit held. -/
theorem moved (h : r.Sound retired) {k : Nat} (hk : k < r.size) (room : r.allocated < r.width) :
    (r.moved k).Sound (retired ++ [r.placement.slot k]) := by
  refine ⟨?_, room⟩
  calc retired ++ [r.placement.slot k] ++ (r.placement.assign k r.allocated).slots
    _ |>.Perm (retired ++ (r.placement.slot k :: (r.placement.assign k r.allocated).slots)) := by
      simp
    _ |>.Perm (retired ++ r.allocated :: r.placement.slots) :=
      (Placement.assign_perm hk r.allocated).append_left _
    _ |>.Perm (r.allocated :: (retired ++ r.placement.slots)) := List.perm_middle
    _ |>.Perm (r.allocated :: List.range r.allocated) := h.partition.cons _
    _ |>.Perm (List.range (r.allocated + 1)) := by
      rw [List.range_succ]
      exact (List.perm_append_singleton ..).symm

theorem newOutcome (h : r.Sound retired) : r.newOutcome.2.Sound retired :=
  ⟨h.partition, h.room⟩

end Sound

/-- The registers that come up from `n` qubits at home on `width` slots, by moves
of qubits and new outcomes in any order. -/
inductive Reachable (n width : Nat) : Register → Prop
  | start (room : n ≤ width) : Reachable n width (.start n width)
  | move {r r' : Register} {k : Nat} {m : Move} (before : Reachable n width r) (hk : k < n)
      (moves : r.moveQubit k = .ok (m, r')) : Reachable n width r'
  | outcome {r : Register} (before : Reachable n width r) : Reachable n width r.newOutcome.2

theorem Reachable.sound {n width : Nat} {r : Register} (h : Reachable n width r) :
    r.size = n ∧ r.width = width ∧ ∃ retired, r.Sound retired := by
  induction h with
  | start room => exact ⟨size_start .., rfl, [], start_sound room⟩
  | @move r r' k m before hk moves ih =>
    obtain ⟨size, wide, retired, sound⟩ := ih
    by_cases room : r.allocated < r.width
    · rw [moveQubit_eq (by omega) room] at moves
      cases moves
      exact ⟨by simpa using size, wide, _, sound.moved (by omega) room⟩
    · simp [moveQubit, room] at moves
  | outcome before ih =>
    obtain ⟨size, wide, retired, sound⟩ := ih
    exact ⟨size, wide, retired, sound.newOutcome⟩

end Register

/-! ## Lifted operators -/

namespace Placement

/-- `q` has on `width` slots the letters that `p` has on the qubits, each in the
slot of its qubit, and the identity in every other slot. -/
structure Lifts (m : Placement) (width : Nat) (p q : Pauli) : Prop where
  size : p.size = m.size
  wide : q.size = width
  live : ∀ k, k < m.size → q.letter (m.slot k) = p.letter k
  idle : ∀ j, j ∉ m.slots → q.letter j = .I

theorem getD_write_of_not_mem {entries : List (Nat × Letter)} {j : Nat}
    (h : j ∉ entries.map Prod.fst) (out : List Letter) :
    (write out entries).getD j .I = out.getD j .I := by
  induction entries generalizing out with
  | nil => rfl
  | cons e entries ih =>
    simp only [List.map_cons, List.mem_cons, not_or] at h
    rw [write, ih h.2]
    simp [List.getD_eq_getElem?_getD, Ne.symm h.1]

theorem getD_write_of_mem {entries : List (Nat × Letter)} (distinct : (entries.map Prod.fst).Nodup)
    {j : Nat} {a : Letter} (h : (j, a) ∈ entries) {out : List Letter} (inside : j < out.length) :
    (write out entries).getD j .I = a := by
  induction entries generalizing out with
  | nil => cases h
  | cons e entries ih =>
    rw [List.map_cons, List.nodup_cons] at distinct
    rw [write]
    rcases List.mem_cons.mp h with rfl | later
    · rw [getD_write_of_not_mem distinct.1]
      simp [List.getD_eq_getElem?_getD, inside]
    · exact ih distinct.2 later (by simpa using inside)

variable {m : Placement} {width : Nat} {p q p' q' : Pauli}

theorem Lifts.unique (h : m.Lifts width p q) (h' : m.Lifts width p q') : q = q' := by
  apply Pauli.ext_letter (h.wide.trans h'.wide.symm)
  intro j _
  by_cases hj : j ∈ m.slots
  · obtain ⟨k, hk, rfl⟩ := exists_of_mem hj
    rw [h.live k hk, h'.live k hk]
  · rw [h.idle j hj, h'.idle j hj]

theorem exists_lifts (distinct : m.slots.Nodup) (inside : ∀ j ∈ m.slots, j < width)
    (size : p.size = m.size) : ∃ q, m.lift? p width = some q ∧ m.Lifts width p q := by
  refine ⟨_, if_pos ⟨size, inside⟩, size, by simp [Pauli.size], ?_, ?_⟩
  · intro k hk
    have hp : k < p.letters.length := by
      rw [show p.letters.length = m.size from size]
      exact hk
    have keys : ((m.slots.zip p.letters).map Prod.fst).Nodup := by
      rw [List.map_fst_zip (Nat.le_of_eq size.symm)]
      exact distinct
    apply getD_write_of_mem keys
    · apply List.mem_iff_getElem?.mpr
      refine ⟨k, List.getElem?_zip_eq_some.mpr ⟨get?_eq_slot hk, ?_⟩⟩
      simp [Pauli.letter, List.getD_eq_getElem?_getD, hp]
    · simpa using inside _ (slot_mem hk)
  · intro j hj
    have absent : j ∉ (m.slots.zip p.letters).map Prod.fst := by
      rw [List.map_fst_zip (Nat.le_of_eq size.symm)]
      exact hj
    rw [Pauli.letter, getD_write_of_not_mem absent]
    by_cases hw : j < width <;> simp [List.getD_eq_getElem?_getD, hw]

/-- On distinct slots inside the register, lifting gives the one operator that
has the letters in place. -/
theorem lift?_eq_some_iff (distinct : m.slots.Nodup) (inside : ∀ j ∈ m.slots, j < width) :
    m.lift? p width = some q ↔ m.Lifts width p q := by
  constructor
  · intro h
    have size : p.size = m.size := by
      by_contra other
      simp [lift?, other] at h
    obtain ⟨q', hq', lifts⟩ := exists_lifts distinct inside size
    rw [hq'] at h
    cases h
    exact lifts
  · intro h
    obtain ⟨q', hq', lifts⟩ := exists_lifts distinct inside h.size
    rw [hq', lifts.unique h]

theorem Lifts.modify (h : m.Lifts width p q) (distinct : m.slots.Nodup)
    (inside : ∀ j ∈ m.slots, j < width) {k : Nat} (hk : k < m.size) (f : Letter → Letter) :
    m.Lifts width (p.modify k f) (q.modify (m.slot k) f) := by
  refine ⟨by simpa using h.size, by simpa using h.wide, ?_, ?_⟩
  · intro j hj
    rw [Pauli.letter_modify, Pauli.letter_modify, h.live j hj]
    have slotInside : m.slot k < q.size := by
      rw [h.wide]
      exact inside _ (slot_mem hk)
    have qubitInside : k < p.size := by
      rw [h.size]
      exact hk
    by_cases same : j = k
    · subst same
      simp [slotInside, qubitInside]
    · have apart : m.slot j ≠ m.slot k := fun e => same (slot_inj distinct hj hk e)
      simp [same, apart]
  · intro j hj
    have apart : j ≠ m.slot k := fun e => hj (e ▸ slot_mem hk)
    rw [Pauli.letter_modify, if_neg fun e => apart e.1, h.idle j hj]

theorem Lifts.conjugateCX (h : m.Lifts width p q) (distinct : m.slots.Nodup)
    (inside : ∀ j ∈ m.slots, j < width) {c t : Nat} (hc : c < m.size) (ht : t < m.size) :
    m.Lifts width (p.conjugateCX c t) (q.conjugateCX (m.slot c) (m.slot t)) := by
  have control := h.modify distinct inside hc (·.times (p.letter t).zPart)
  have target := control.modify distinct inside ht
    (·.times ((p.multiply c (p.letter t).zPart).letter c).xPart)
  simp only [Pauli.conjugateCX, Pauli.multiply, h.live t ht, control.live c hc]
  exact target

/-- A letter moves along with its qubit to a slot that nothing used. -/
theorem Lifts.move (h : m.Lifts width p q) (distinct : m.slots.Nodup)
    (inside : ∀ j ∈ m.slots, j < width) {k fresh : Nat} (hk : k < m.size)
    (unused : fresh ∉ m.slots) (room : fresh < width) :
    (m.assign k fresh).Lifts width p
      ⟨(q.letters.set (m.slot k) .I).set fresh (q.letter (m.slot k))⟩ := by
  have apart : m.slot k ≠ fresh := fun e => unused (e ▸ slot_mem hk)
  have wide : q.letters.length = width := h.wide
  have letters : ∀ j, j < width →
      Pauli.letter ⟨(q.letters.set (m.slot k) .I).set fresh (q.letter (m.slot k))⟩ j =
        if j = fresh then p.letter k else if j = m.slot k then .I else q.letter j := by
    intro j hj
    rw [h.live k hk]
    by_cases new : j = fresh
    · subst new
      simp [Pauli.letter, List.getD_eq_getElem?_getD, wide, hj]
    · by_cases old : j = m.slot k
      · subst old
        simp [Pauli.letter, List.getD_eq_getElem?_getD, wide, hj, new, Ne.symm new]
      · simp [Pauli.letter, List.getD_eq_getElem?_getD, new, old, Ne.symm new, Ne.symm old]
  have size : (m.assign k fresh).size = m.size := size_assign ..
  refine ⟨h.size.trans size.symm, by simpa [Pauli.size] using wide, ?_, ?_⟩
  · intro j hj
    rw [size] at hj
    rw [slot_assign m k fresh j hk]
    by_cases same : j = k
    · subst same
      rw [if_pos rfl, letters fresh room, if_pos rfl]
    · have slotApart : m.slot j ≠ m.slot k := fun e => same (slot_inj distinct hj hk e)
      have notFresh : m.slot j ≠ fresh := fun e => unused (e ▸ slot_mem hj)
      rw [if_neg same, letters _ (inside _ (slot_mem hj)), if_neg notFresh, if_neg slotApart,
        h.live j hj]
  · intro j hj
    by_cases hw : j < width
    · have notFresh : j ≠ fresh := by
        rintro rfl
        apply hj
        have := slot_mem (m := m.assign k j) (k := k) (by rwa [size])
        rwa [slot_assign m k j k hk, if_pos rfl] at this
      rw [letters j hw, if_neg notFresh]
      by_cases old : j = m.slot k
      · rw [if_pos old]
      · rw [if_neg old]
        apply h.idle
        intro live
        obtain ⟨i, hi, rfl⟩ := exists_of_mem live
        have other : i ≠ k := fun e => old (e ▸ rfl)
        apply hj
        have := slot_mem (m := m.assign k fresh) (k := i) (by rwa [size])
        rwa [slot_assign m k fresh i hk, if_neg other] at this
    · apply Pauli.letter_of_size_le
      simpa [Pauli.size, wide] using Nat.le_of_not_lt hw

/-- Lifted operators commute exactly if the operators do. -/
theorem Lifts.commutes_eq (distinct : m.slots.Nodup) (inside : ∀ j ∈ m.slots, j < width)
    (h : m.Lifts width p q) (h' : m.Lifts width p' q') : q.commutes q' = p.commutes p' := by
  rw [Pauli.commutes_eq_parity (n := width) (by rw [h.wide]; exact Nat.min_le_left ..),
    Pauli.commutes_eq_parity (n := m.size) (by rw [h.size]; exact Nat.min_le_left ..),
    parity_slots distinct inside]
  · congr 1
    apply parity_congr
    intro k hk
    have live : m.slots.getD k k = m.slot k := rfl
    rw [live, h.live k hk, h'.live k hk]
  · intro j hj
    simp [h.idle j hj, Letter.x, Letter.z]

/-- Where the letters of the register can be laid out, an operator is lifted as if there were no
limit. -/
theorem lift_eq_ok_iff (room : width < byteLimit) (distinct : m.slots.Nodup)
    (inside : ∀ j ∈ m.slots, j < width) : m.lift p width = .ok q ↔ m.Lifts width p q := by
  have fits : fitsLetters width = true := decide_eq_true room
  rw [← lift?_eq_some_iff distinct inside]
  by_cases size : p.size = m.size
  · simp only [lift, size, fits, if_true]
    cases m.lift? p width <;> simp
  · simp [lift, lift?, size]

theorem Lifts.get?_slot (h : m.Lifts width p q) (inside : ∀ j ∈ m.slots, j < width) {k : Nat}
    (hk : k < m.size) : q.get? (m.slot k) = some (p.letter k) := by
  have reached : m.slot k < q.size := by
    rw [h.wide]
    exact inside _ (slot_mem hk)
  rw [Pauli.get?_eq_letter reached, h.live k hk]

theorem Lifts.get?_idle (h : m.Lifts width p q) {j : Nat} (hj : j < width) (unused : j ∉ m.slots) :
    q.get? j = some .I := by
  rw [Pauli.get?_eq_letter (by rwa [h.wide]), h.idle j unused]

end Placement

/-- **Scattered operators commute as before.** The qubits live in distinct slots of the register,
and both operators have a letter for each of them. If the letters of a whole register can be laid
out, both operators are scattered: every letter is in the slot of its qubit, the identity is in
every other slot, and the results commute exactly if the operators do. Otherwise there is no
result. -/
theorem scattering_keeps_commutation {m : Placement} {width : Nat} (distinct : m.slots.Nodup)
    (inside : ∀ slot ∈ m.slots, slot < width) {p q : Pauli} (hp : p.size = m.size)
    (hq : q.size = m.size) :
    (byteLimit ≤ width → m.lift p width = .error .tooWide ∧ m.lift q width = .error .tooWide) ∧
    (width < byteLimit → ∃ p' q', m.lift p width = .ok p' ∧ m.lift q width = .ok q' ∧
      (p'.commutes q' = true ↔ p.commutes q = true) ∧ p'.size = width ∧
      (∀ k < m.size, ∃ slot a, m.get? k = some slot ∧ p.get? k = some a ∧
        p'.get? slot = some a) ∧
      ∀ j < width, j ∉ m.slots → p'.get? j = some .I) := by
  constructor
  · intro wide
    have unfit : fitsLetters width = false := decide_eq_false (Nat.not_lt.mpr wide)
    simp [Placement.lift, hp, hq, unfit]
  intro room
  obtain ⟨p', -, lifts⟩ := Placement.exists_lifts distinct inside hp
  obtain ⟨q', -, lifts'⟩ := Placement.exists_lifts distinct inside hq
  refine ⟨p', q', (Placement.lift_eq_ok_iff room distinct inside).mpr lifts,
    (Placement.lift_eq_ok_iff room distinct inside).mpr lifts', ?_, lifts.wide, ?_, ?_⟩
  · rw [lifts.commutes_eq distinct inside lifts']
  · intro k hk
    exact ⟨m.slot k, p.letter k, Placement.get?_eq_slot hk, Pauli.get?_eq_letter (hp ▸ hk),
      lifts.get?_slot inside hk⟩
  · intro j hj unused
    exact lifts.get?_idle hj unused

/-- The slots are out of order, and two letters clash. They still do so two times where they have
been scattered to. -/
theorem scattering_to_permuted_slots :
    let m : Placement := ⟨[3, 0, 4]⟩
    let p : Pauli := ⟨[.X, .Z, .Y]⟩
    let q : Pauli := ⟨[.Z, .Z, .X]⟩
    let p' : Pauli := ⟨[.Z, .I, .I, .X, .Y]⟩
    let q' : Pauli := ⟨[.Z, .I, .I, .Z, .X]⟩
    m.lift p 5 = .ok p' ∧ m.lift q 5 = .ok q' ∧ p.clashes q = 2 ∧
      (p'.commutes q' = true ↔ p.commutes q = true) ∧ p'.get? 1 = some .I := by
  intro m p q p' q'
  have hp : m.lift p 5 = .ok p' := by decide
  have hq : m.lift q 5 = .ok q' := by decide
  have scattered :=
    (@scattering_keeps_commutation m 5 (by decide) (by decide) p q rfl rfl).2 (by decide)
  obtain ⟨found, found', lifted, lifted', commute, -, -, idle⟩ := scattered
  rw [hp] at lifted
  rw [hq] at lifted'
  cases lifted
  cases lifted'
  exact ⟨hp, hq, by decide, commute, idle 1 (by decide) (by decide)⟩

/-- The only qubit is in the first of `byteLimit` slots. Its operator has a letter for it, but the
letters of such a register cannot be laid out. -/
theorem scattering_without_room :
    let m : Placement := ⟨[0]⟩
    let p : Pauli := ⟨[.X]⟩
    m.slots.Nodup ∧ (∀ slot ∈ m.slots, slot < byteLimit) ∧ p.size = m.size ∧
      ¬ ∃ p', m.lift p byteLimit = .ok p' := by
  intro m p
  refine ⟨by decide, by decide, rfl, ?_⟩
  rintro ⟨p', lifted⟩
  simp [Placement.lift, m, p, Pauli.size, Placement.size, fitsLetters] at lifted

end HadamardFree
