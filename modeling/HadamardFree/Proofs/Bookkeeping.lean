import HadamardFree.Proofs.Slots

/-!
# The books of a register

A register is asked for two things: to move a qubit to a fresh slot, and for a new outcome
number. Its answers, in any order of the calls, account for every slot and every number.

* `Register.call`, `Register.run`: one call, and calls one after the other;
* `Register.Books`: what the answers so far say about the register;
* `Register.Books.called`, `Register.Books.ran`: one more call keeps the books, and so do
  any number of calls;
* `register_accounts_for_slots`: the books of every run from qubits at home, and what the
  next move is answered.
-/

namespace HadamardFree

namespace Register

/-! ## Calls -/

/-- What can be asked of a register. -/
inductive Call where
  | move (qubit : Nat)
  | outcome
  deriving DecidableEq, Repr

inductive Answer where
  | moved (m : Move)
  | refused (cause : Refusal)
  | outcome (id : Nat)
  deriving DecidableEq, Repr

/-- The answer to a call, and the register after it. A move that is refused changes
nothing. -/
def call (r : Register) : Call → Answer × Register
  | .move k =>
    match r.moveQubit k with
    | .ok (m, r) => (.moved m, r)
    | .error cause => (.refused cause, r)
  | .outcome =>
    let (id, r) := r.newOutcome
    (.outcome id, r)

/-- The answers to calls one after the other, and the register after all of them. -/
def run (r : Register) : List Call → List Answer × Register
  | [] => ([], r)
  | c :: calls =>
    let (a, r) := r.call c
    let (answers, r) := r.run calls
    (a :: answers, r)

theorem run_concat (r : Register) (calls : List Call) (c : Call) :
    r.run (calls ++ [c]) =
      ((r.run calls).1 ++ [((r.run calls).2.call c).1], ((r.run calls).2.call c).2) := by
  induction calls generalizing r with
  | nil => rfl
  | cons c' calls ih => simp only [List.cons_append, run, ih]

namespace Answer

def move? : Answer → Option Move
  | moved m => some m
  | refused _ | outcome _ => none

def id? : Answer → Option Nat
  | outcome id => some id
  | moved _ | refused _ => none

/-- The moves that were made, in order. -/
def moves (answers : List Answer) : List Move :=
  answers.filterMap move?

/-- The outcome numbers that were given away, in order. -/
def ids (answers : List Answer) : List Nat :=
  answers.filterMap id?

@[simp] theorem moves_concat (answers : List Answer) (a : Answer) :
    moves (answers ++ [a]) = moves answers ++ a.move?.toList := by
  cases a <;> simp [moves, move?]

@[simp] theorem ids_concat (answers : List Answer) (a : Answer) :
    ids (answers ++ [a]) = ids answers ++ a.id?.toList := by
  cases a <;> simp [ids, id?]

end Answer

theorem call_of_full {r : Register} (full : r.allocated = r.width) (k : Nat) :
    r.call (.move k) = (.refused .full, r) := by
  simp [call, moveQubit, full]

theorem call_of_free {r : Register} {k : Nat} (hk : k < r.size) (free : r.allocated < r.width) :
    r.call (.move k) = (.moved ⟨k, r.placement.slot k, r.allocated⟩, r.moved k) := by
  rw [call, moveQubit_eq hk free]

/-! ## Books -/

/-- The books after `calls` have been answered by `answers`: every slot handed out is one
that a move has retired or the slot of a qubit, fresh slots and outcome numbers have been
given in order, and nothing else has. -/
structure Books (n width : Nat) (calls : List Call) (answers : List Answer) (r : Register) :
    Prop where
  size : r.size = n
  width : r.width = width
  sound : r.Sound ((Answer.moves answers).map Move.retired)
  allocated : r.allocated = n + (Answer.moves answers).length
  fresh : (Answer.moves answers).map Move.fresh = List.range' n (Answer.moves answers).length
  measurements : r.measurements = calls.count .outcome
  ids : Answer.ids answers = List.range (calls.count .outcome)

namespace Books

variable {n width : Nat} {calls : List Call} {answers : List Answer} {r : Register}

theorem start (fits : n ≤ width) : (start n width).Books n width [] [] :=
  ⟨size_start .., rfl, start_sound fits, rfl, rfl, rfl, rfl⟩

theorem refused (h : r.Books n width calls answers) (k : Nat) (cause : Refusal) :
    r.Books n width (calls ++ [.move k]) (answers ++ [.refused cause]) := by
  refine ⟨h.size, h.width, ?_, ?_, ?_, ?_, ?_⟩
  · simpa [Answer.move?] using h.sound
  · simpa [Answer.move?] using h.allocated
  · simpa [Answer.move?] using h.fresh
  · simpa using h.measurements
  · simpa [Answer.id?] using h.ids

theorem moved (h : r.Books n width calls answers) {k : Nat} (hk : k < r.size)
    (free : r.allocated < r.width) :
    (r.moved k).Books n width (calls ++ [.move k])
      (answers ++ [.moved ⟨k, r.placement.slot k, r.allocated⟩]) := by
  refine ⟨(size_moved r k).trans h.size, h.width, ?_, ?_, ?_, ?_, ?_⟩
  · simpa [Answer.move?] using h.sound.moved hk free
  · simp [Answer.move?, h.allocated, Nat.add_assoc]
  · simp [Answer.move?, h.fresh, h.allocated, List.range'_concat]
  · simpa [Register.moved] using h.measurements
  · simpa [Answer.id?] using h.ids

theorem newOutcome (h : r.Books n width calls answers) :
    r.newOutcome.2.Books n width (calls ++ [.outcome]) (answers ++ [.outcome r.measurements]) := by
  refine ⟨h.size, h.width, ?_, ?_, ?_, ?_, ?_⟩
  · simpa [Answer.move?] using h.sound.newOutcome
  · simpa [Answer.move?, Register.newOutcome] using h.allocated
  · simpa [Answer.move?] using h.fresh
  · simp [Register.newOutcome, h.measurements]
  · simp [Answer.id?, h.ids, h.measurements, List.range_succ]

/-- One more call keeps the books. -/
theorem called (h : r.Books n width calls answers) {c : Call} (known : ∀ k, c = .move k → k < n) :
    (r.call c).2.Books n width (calls ++ [c]) (answers ++ [(r.call c).1]) := by
  cases c with
  | outcome => exact h.newOutcome
  | move k =>
    have hk : k < r.size := by
      rw [h.size]
      exact known k rfl
    by_cases free : r.allocated < r.width
    · rw [call_of_free hk free]
      exact h.moved hk free
    · rw [call_of_full (Nat.le_antisymm h.sound.room (Nat.le_of_not_lt free))]
      exact h.refused k .full

/-- Any number of calls keeps the books. -/
theorem ran (h : r.Books n width calls answers) {more : List Call}
    (known : ∀ k, .move k ∈ more → k < n) :
    (r.run more).2.Books n width (calls ++ more) (answers ++ (r.run more).1) := by
  induction more generalizing r calls answers with
  | nil => simpa [run] using h
  | cons c more ih =>
    have first := h.called (c := c) fun k same => known k (same ▸ List.mem_cons_self ..)
    have rest := ih first fun k hk => known k (List.mem_cons_of_mem _ hk)
    simpa [run] using rest

end Books

end Register

/-- **A register accounts for its slots.** It starts with `n` qubits at home, unless their
slots cannot be laid out. After any calls, the slots that moves have retired and the slots of
the qubits are all slots handed out so far, each once; there is one for each qubit and one
for each move that was made. Fresh slots are given in order from `n` on, and outcome numbers
in order from 0 on, whatever moves come between. The next move is refused exactly if all slots
are handed out, and then nothing changes; otherwise it retires the slot that its qubit holds
and gives the next fresh one. -/
theorem register_accounts_for_slots {n width : Nat} (fits : n ≤ width) :
    let start := Register.start n width
    Register.start? n width = (if fitsNumbers n then some start else none) ∧
    ∀ calls : List Register.Call, (∀ k, .move k ∈ calls → k < n) →
      ∃ answers r, start.run calls = (answers, r) ∧
        let moves := Register.Answer.moves answers
        (moves.map Move.retired ++ r.placement.slots).Perm (List.range r.allocated) ∧
        r.allocated = n + moves.length ∧ r.allocated ≤ width ∧
        moves.map Move.fresh = List.range' n moves.length ∧
        Register.Answer.ids answers = List.range (calls.count .outcome) ∧
        ∀ k, k < n →
          (r.allocated = width →
            start.run (calls ++ [.move k]) = (answers ++ [.refused .full], r)) ∧
          (r.allocated ≠ width → ∃ slot, r.placement.get? k = some slot ∧
            start.run (calls ++ [.move k]) =
              (answers ++ [.moved ⟨k, slot, n + moves.length⟩], r.moved k)) := by
  intro start
  refine ⟨by simp [Register.start?, fits, start], ?_⟩
  intro calls known
  cases ran : start.run calls with | mk answers r =>
  have books : r.Books n width calls answers := by
    simpa [start, ran] using (Register.Books.start fits).ran known
  have next : ∀ k, start.run (calls ++ [.move k]) =
      (answers ++ [(r.call (.move k)).1], (r.call (.move k)).2) := by
    intro k
    rw [Register.run_concat, ran]
  have room : r.allocated ≤ width := books.width ▸ books.sound.room
  refine ⟨answers, r, rfl, books.sound.partition, books.allocated, room, books.fresh, books.ids, ?_⟩
  intro k hk
  constructor
  · intro full
    rw [next, Register.call_of_full (full.trans books.width.symm)]
  · intro other
    have hk' : k < r.size := by
      rw [books.size]
      exact hk
    have free : r.allocated < r.width := by
      rw [books.width]
      omega
    refine ⟨r.placement.slot k, Placement.get?_eq_slot hk', ?_⟩
    rw [next, Register.call_of_free hk' free, books.allocated]

/-- Two qubits on four slots. The second qubit moves twice, which leaves no slot for the
first, and both outcome numbers are given between the moves. -/
theorem register_accounts_for_repeated_moves :
    let calls : List Register.Call := [.move 1, .outcome, .move 1, .move 0, .outcome]
    ∃ answers r, (Register.start 2 4).run calls = (answers, r) ∧
      answers = [.moved ⟨1, 1, 2⟩, .outcome 0, .moved ⟨1, 2, 3⟩, .refused .full, .outcome 1] ∧
      ((Register.Answer.moves answers).map Move.retired ++ r.placement.slots).Perm
        (List.range r.allocated) ∧
      r.allocated = 4 ∧
      (Register.start 2 4).run (calls ++ [.move 0]) = (answers ++ [.refused .full], r) := by
  intro calls
  have known : ∀ k, .move k ∈ calls → k < 2 := by simp [calls]
  obtain ⟨answers, r, ran, partition, -, -, -, -, next⟩ :=
    (register_accounts_for_slots (show 2 ≤ 4 by decide)).2 calls known
  have answered : answers =
      [.moved ⟨1, 1, 2⟩, .outcome 0, .moved ⟨1, 2, 3⟩, .refused .full, .outcome 1] :=
    (congrArg Prod.fst ran).symm
  have allocated : r.allocated = 4 := (congrArg (fun ran => ran.2.allocated) ran).symm
  exact ⟨answers, r, ran, answered, partition, allocated, (next 0 (by decide)).1 allocated⟩

end HadamardFree
