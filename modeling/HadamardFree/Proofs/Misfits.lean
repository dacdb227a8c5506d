import HadamardFree.Proofs.Acceptance
import HadamardFree.Proofs.Refolding

/-!
# Which streams are refused, and why

A stream is folded in one pass. It is refused for the first operation that does not fit the
register, and for nothing else.

* `StreamOp.Misfit`: what is wrong with an operation;
* `StreamOp.Misfit.not_folds`, `StreamOp.Misfit.unique`: such an operation cannot be folded, and
  only one thing is wrong with it;
* `Folded.absorb_eq_error_iff`, `Folded.foldlM_eq_error_iff`: what stops the pass at one operation,
  and in a whole stream;
* `Folded.spans_of_ofStream`: every term so far spans the register, so no entry is missed;
* `folding_refuses_first_misfit`: all of it for one stream.
-/

namespace HadamardFree

/-! ## Misfits -/

/-- What is wrong with an operation of a stream behind `number` rotations, on a register of the
given width. The size of an axis comes before its letters, of which the first X or Y counts. -/
inductive StreamOp.Misfit (width number : Nat) : StreamOp → FoldError → Prop
  | gate {g : Gate} {q : Nat} (acts : q ∈ g.qubits) (beyond : width ≤ q) :
      Misfit width number (.gate g) (.qubitOutOfRange g width)
  | size {r : Rotation} (other : r.axis.size ≠ width) :
      Misfit width number (.rotation r) (.widthMismatch number width r.axis.size)
  | letter {r : Rotation} {q : Nat} {a : Letter} (same : r.axis.size = width)
      (found : r.axis.get? q = some a) (off : a.isDiagonal = false)
      (first : ∀ j b, j < q → r.axis.get? j = some b → b.isDiagonal = true) :
      Misfit width number (.rotation r) (.notDiagonal number q a)

namespace StreamOp.Misfit

variable {width number : Nat} {op : StreamOp} {e e' : FoldError}

theorem not_folds (h : op.Misfit width number e) : ¬ op.Folds width := by
  intro folds
  cases h with
  | gate acts beyond =>
    have inside := Gate.fits_iff.mp folds _ acts
    omega
  | size other => exact other folds.1
  | letter same found off first =>
    have diagonal := List.all_eq_true.mp folds.2 _ (List.mem_of_getElem? found)
    rw [off] at diagonal
    cases diagonal

theorem unique (h : op.Misfit width number e) (h' : op.Misfit width number e') : e = e' := by
  cases h with
  | gate acts beyond =>
    cases h' with
    | gate => rfl
  | size other =>
    cases h' with
    | size => rfl
    | letter same => exact absurd same other
  | @letter r q a same found off first =>
    cases h' with
    | size other => exact absurd same other
    | @letter _ q' a' same' found' off' first' =>
      rcases Nat.lt_trichotomy q q' with lt | rfl | gt
      · rw [first' q a lt found] at off
        cases off
      · rw [found] at found'
        cases found'
        rfl
      · rw [first q' a' gt found'] at off'
        cases off'

end StreamOp.Misfit

/-! ## Where the pass stops -/

namespace Folded

variable {f : Folded} {stream : List StreamOp} {e : FoldError}

theorem misfit_of_absorb {op : StreamOp} (stopped : f.absorb op = .error e) :
    op.Misfit f.poly.width f.poly.size e := by
  have bad : ¬ op.Folds f.poly.width := by
    intro folds
    rw [absorb_eq_ok_iff.mpr ⟨folds, rfl⟩] at stopped
    cases stopped
  cases op with
  | gate g =>
    obtain ⟨q, acts, beyond⟩ : ∃ q ∈ g.qubits, f.poly.width ≤ q := by
      simpa [StreamOp.Folds, Gate.fits] using bad
    have unfit : ¬ g.fits f.poly.width = true := bad
    rw [absorb, if_neg unfit] at stopped
    cases stopped
    exact .gate acts beyond
  | rotation r =>
    by_cases same : r.axis.size = f.poly.width
    · have off : r.axis.isDiagonal = false := by
        simpa [StreamOp.Folds, same] using bad
      obtain ⟨q, a, refused, found, letter, first⟩ :=
        Pauli.support_eq_error same off f.poly.size
      simp only [absorb, refused, bind, Except.bind] at stopped
      cases stopped
      exact .letter same found letter first
    · simp only [absorb, Pauli.support, if_neg same, bind, Except.bind] at stopped
      cases stopped
      exact .size same

/-- An operation is refused for what is wrong with it. -/
theorem absorb_eq_error_iff {op : StreamOp} :
    f.absorb op = .error e ↔ op.Misfit f.poly.width f.poly.size e := by
  refine ⟨misfit_of_absorb, fun misfit => ?_⟩
  cases absorbed : f.absorb op with
  | ok f' => exact absurd (absorb_eq_ok_iff.mp absorbed).1 misfit.not_folds
  | error e' => rw [misfit.unique (misfit_of_absorb absorbed)]

theorem foldlM_eq_error_iff :
    stream.foldlM absorb f = .error e ↔ ∃ before op after, stream = before ++ op :: after ∧
      (∀ op' ∈ before, op'.Folds f.poly.width) ∧
      op.Misfit f.poly.width (f.poly.size + (StreamOp.rotations before).length) e := by
  constructor
  · intro stopped
    induction stream generalizing f with
    | nil => cases stopped
    | cons op stream ih =>
      rw [List.foldlM_cons] at stopped
      cases first : f.absorb op with
      | error e' =>
        rw [first] at stopped
        cases stopped
        exact ⟨[], op, stream, rfl, List.forall_mem_nil _, absorb_eq_error_iff.mp first⟩
      | ok f' =>
        rw [first] at stopped
        obtain ⟨folds, rfl⟩ := absorb_eq_ok_iff.mp first
        obtain ⟨before, op', after, split, fine, misfit⟩ := ih stopped
        -- The first operation counts among those before the misfit, if it is a rotation.
        have size : (f.absorbed op).poly.size = f.poly.size + (StreamOp.rotations [op]).length :=
          size_foldl f [op]
        rw [width_absorbed] at fine misfit
        rw [size, Nat.add_assoc, ← List.length_append] at misfit
        refine ⟨op :: before, op', after, ?_, List.forall_mem_cons.mpr ⟨folds, fine⟩, ?_⟩
        · rw [split, List.cons_append]
        · have listed : StreamOp.rotations (op :: before) =
              StreamOp.rotations [op] ++ StreamOp.rotations before :=
            List.filterMap_append (l := [op])
          rw [listed]
          exact misfit
  · rintro ⟨before, op, after, rfl, fine, misfit⟩
    have done : before.foldlM absorb f = .ok (before.foldl absorbed f) :=
      foldlM_eq_ok_iff.mpr ⟨fine, rfl⟩
    have stopped : (before.foldl absorbed f).absorb op = .error e := by
      apply absorb_eq_error_iff.mpr
      rw [width_foldl, size_foldl]
      exact misfit
    rw [List.foldlM_append, done]
    simp only [bind, Except.bind, List.foldlM_cons, stopped]

/-- A stream is refused for its first misfit. -/
theorem ofStream_eq_error_iff {width : Nat} :
    ofStream stream width = .error e ↔ ∃ before op after, stream = before ++ op :: after ∧
      (∀ op' ∈ before, op'.Folds width) ∧
      op.Misfit width (StreamOp.rotations before).length e := by
  have stopped := @foldlM_eq_error_iff ⟨.empty width, []⟩ stream e
  have start : (PhasePolynomial.empty width).size = 0 := rfl
  simp only [start, Nat.zero_add] at stopped
  exact stopped

/-- All terms of a folded stream span the register. -/
theorem spans_of_ofStream {width : Nat} (folded : ofStream stream width = .ok f) :
    f.poly.Spans := by
  obtain ⟨folds, rfl⟩ := ofStream_eq_ok_iff.mp folded
  clear folded
  induction stream using List.reverseRecOn with
  | nil => exact PhasePolynomial.spans_empty width
  | append_singleton stream op ih =>
    rw [List.forall_mem_append] at folds
    rw [List.foldl_append]
    have last : op.Folds (stream.foldl absorbed ⟨.empty width, []⟩).poly.width := by
      rw [width_foldl]
      exact folds.2 op (List.mem_singleton.mpr rfl)
    exact Wide.absorbed (ih folds.1) last

end Folded

/-- **Streams are refused for their first misfit.** There is a result exactly if a table of the
width can be laid out. It is an error exactly if some operation does not fold, and this is the
error of the first such operation: a gate that leaves the register, or an axis, known by the number
of rotations before it, that has another size or else an X or a Y, of which the first one is named.
A term is never refused for its shape. Where a CX gate is folded in, every row of the table so far
has the entries that it asks for. -/
theorem folding_refuses_first_misfit (stream : List StreamOp) (width : Nat) :
    (byteLimit ≤ width → Folded.ofStream? stream width = none) ∧
    (width < byteLimit → ∃ result, Folded.ofStream? stream width = some result ∧
      ((∃ e, result = .error e) ↔ ∃ op ∈ stream, ¬ op.Folds width) ∧
      (∀ e, result = .error e ↔ ∃ before op after, stream = before ++ op :: after ∧
        (∀ op' ∈ before, op'.Folds width) ∧
        op.Misfit width (StreamOp.rotations before).length e) ∧
      result ≠ .error .shapeMismatch ∧
      ∀ before c t after f, stream = before ++ .gate (.cx c t) :: after →
        Folded.ofStream before width = .ok f → c < width → t < width →
        f.poly.columns.call (.passCX c t) = some (.done, (f.poly.passCX c t).columns)) := by
  refine ⟨Folded.ofStream?_eq_none stream, fun room => ?_⟩
  refine ⟨Folded.ofStream stream width, Folded.ofStream?_eq_some stream room, ?_,
    fun e => Folded.ofStream_eq_error_iff, ?_, ?_⟩
  · constructor
    · rintro ⟨e, refused⟩
      obtain ⟨before, op, after, rfl, -, misfit⟩ := Folded.ofStream_eq_error_iff.mp refused
      exact ⟨op, by simp, misfit.not_folds⟩
    · rintro ⟨op, member, bad⟩
      cases result : Folded.ofStream stream width with
      | ok f => exact absurd ((Folded.ofStream_eq_ok_iff.mp result).1 op member) bad
      | error e => exact ⟨e, rfl⟩
  · intro refused
    obtain ⟨before, op, after, -, -, misfit⟩ := Folded.ofStream_eq_error_iff.mp refused
    cases misfit
  · rintro before c t after f - folded hc ht
    obtain rfl : f.poly.width = width := by
      rw [(Folded.ofStream_eq_ok_iff.mp folded).2, Folded.width_foldl]
      rfl
    rw [PhasePolynomial.call_columns (Folded.spans_of_ofStream folded),
      PhasePolynomial.call_passCX hc ht]
    rfl

/-- A CX gate is folded into the first rotation. Of the second rotation the Y is named, which comes
before the X. The gate behind it, which leaves the register, is not reached. -/
theorem folding_refuses_first_y :
    let stream : List StreamOp := [.rotation ⟨⟨[.I, .Z, .I]⟩, [], false⟩, .gate (.cx 0 1),
      .rotation ⟨⟨[.Z, .Y, .X]⟩, [0], true⟩, .gate (.h 3)]
    Folded.ofStream? stream 3 = some (.error (.notDiagonal 1 1 .Y)) ∧
    ∃ before op after, stream = before ++ op :: after ∧ (∀ op' ∈ before, op'.Folds 3) ∧
      op.Misfit 3 (StreamOp.rotations before).length (.notDiagonal 1 1 .Y) := by
  intro stream
  have refused : Folded.ofStream? stream 3 = some (.error (.notDiagonal 1 1 .Y)) := by decide
  obtain ⟨result, found, -, first, -⟩ := (folding_refuses_first_misfit stream 3).2 (by decide)
  rw [refused] at found
  cases found
  exact ⟨refused, (first _).mp rfl⟩

/-- From this width on no table can be laid out. All gates of the stream are on the register, but
there is no result. -/
theorem folding_without_room :
    let stream : List StreamOp := [.gate (.s 0), .gate (.cx 1 0)]
    (∀ op ∈ stream, op.Folds byteLimit) ∧
      ¬ ∃ result, Folded.ofStream? stream byteLimit = some result := by
  intro stream
  constructor
  · simp [stream, StreamOp.Folds, Gate.fits, Gate.qubits, byteLimit]
  · simp [Folded.ofStream?, fitsLetters]

end HadamardFree
