import HadamardFree.Proofs.Branches

/-!
# Supports are conjugated axes

A CX gate is folded into all terms at once. For a single rotation, this is conjugation: its axis
is carried through the CX gates that stand behind it in the stream.

* `Pauli.conjugateCX_of_isDiagonal`: a CX gate on a diagonal operator, which stays diagonal;
* `Pauli.exists_conjugate_gate`: one gate on the support of a term;
* `Folded.Tracks`: every term so far is the conjugated axis of its rotation;
* `Folded.Tracks.absorbed`, `Folded.tracks_foldl`: one more operation, and whole streams;
* `folding_conjugates_axes`: what a stream is folded into.
-/

namespace HadamardFree

/-! ## Diagonal operators and CX gates -/

namespace Pauli

theorem multiply_I (p : Pauli) (k : Nat) : p.multiply k .I = p := by
  unfold multiply
  apply ext_letter (size_modify ..)
  intro j _
  rw [letter_modify]
  split
  · cases p.letter j <;> rfl
  · rfl

theorem zBits_multiply (p : Pauli) (k : Nat) (a : Letter) :
    (p.multiply k a).zBits = p.zBits.modify k (· ^^ a.z) := by
  unfold zBits multiply modify
  apply List.ext_getElem
  · simp
  · intro j _ _
    simp only [List.getElem_map, List.getElem_modify]
    split
    · exact Letter.z_ofBits ..
    · rfl

theorem isDiagonal_multiply {p : Pauli} (h : p.isDiagonal = true) (k : Nat) (a : Letter) :
    (p.multiply k a.zPart).isDiagonal = true := by
  rw [isDiagonal_iff] at h ⊢
  intro j
  rw [multiply, letter_modify]
  split
  · simp [Letter.times, Letter.zPart, h]
  · exact h j

/-- The control has no X part for the target to take, be they different qubits or not. -/
theorem conjugateCX_of_isDiagonal {p : Pauli} (h : p.isDiagonal = true) (c t : Nat) :
    p.conjugateCX c t = p.multiply c (p.letter t).zPart := by
  have control := isDiagonal_iff.mp (isDiagonal_multiply h c (p.letter t)) c
  unfold conjugateCX
  simp only [Letter.xPart, control]
  exact multiply_I ..

theorem xBits_of_isDiagonal {p : Pauli} (h : p.isDiagonal = true) : ∀ b ∈ p.xBits, b = false := by
  intro b hb
  obtain ⟨a, ha, rfl⟩ := List.mem_map.mp hb
  have own : a.isDiagonal = true := List.all_eq_true.mp h a ha
  simpa [Letter.isDiagonal_eq_not_x] using own

end Pauli

/-! ## One gate and one term -/

/-- The effect on a term of bringing a gate to its front. -/
def Term.passGate (t : Term) : Gate → Term
  | .cx c target => t.passCX c target
  | _ => t

theorem PhasePolynomial.get?_passGate (poly : PhasePolynomial) (g : Gate) (k : Nat) :
    (poly.passGate g).get? k = (poly.get? k).map (·.passGate g) := by
  cases g with
  | cx c t => exact List.getElem?_map ..
  | h | s | cz | meas => exact Option.map_id'.symm

/-- A diagonal operator is conjugated by a gate as a support is, if only CX gates count. -/
theorem Pauli.exists_conjugate_gate {p : Pauli} (isDiagonal : p.isDiagonal = true) {g : Gate}
    (fits : g.fits p.size = true) :
    ∃ q, p.conjugate ([g].filter Gate.isCX) = .ok q ∧ q.size = p.size ∧ q.isDiagonal = true ∧
      ∀ flips sign, Term.passGate ⟨p.zBits, flips, sign⟩ g = ⟨q.zBits, flips, sign⟩ := by
  cases g with
  | cx c t =>
    have inside := Gate.fits_iff.mp fits
    have carries : (Gate.cx c t).Carries p.size := ⟨rfl, fits⟩
    refine ⟨p.multiply c (p.letter t).zPart, ?_, size_modify .., isDiagonal_multiply isDiagonal .., ?_⟩
    · have passed := conjugateGate_eq_past carries
      rw [past_cx (inside c (by simp [Gate.qubits])) (inside t (by simp [Gate.qubits])),
        conjugateCX_of_isDiagonal isDiagonal] at passed
      change p.conjugate [.cx c t] = _
      rw [conjugate_cons, passed]
      rfl
    · intro flips sign
      rw [zBits_multiply, Term.passGate, Term.passCX, getD_zBits, Letter.zPart, Letter.z_ofBits]
  | h | s | cz | meas => exact ⟨p, rfl, rfl, isDiagonal, fun _ _ => rfl⟩

/-! ## Whole streams -/

namespace Folded

/-- For every rotation of the stream there is a term, in order. Its support is that of the axis
behind the CX gates that follow the rotation. -/
def Tracks (stream : List StreamOp) (f : Folded) : Prop :=
  ∀ before r after, stream = before ++ .rotation r :: after →
    ∃ q, r.axis.conjugate ((StreamOp.gates after).filter Gate.isCX) = .ok q ∧
      q.size = f.poly.width ∧ q.isDiagonal = true ∧
      f.poly.get? (StreamOp.rotations before).length = some ⟨q.zBits, r.flips, r.sign⟩

/-- One more operation is folded in. -/
theorem Tracks.absorbed {stream : List StreamOp} {f : Folded} (h : f.Tracks stream)
    (size : f.poly.size = (StreamOp.rotations stream).length) {op : StreamOp}
    (folds : op.Folds f.poly.width) : (f.absorbed op).Tracks (stream ++ [op]) := by
  intro before r after split
  rw [width_absorbed]
  obtain rfl | ⟨after, op', rfl⟩ := after.eq_nil_or_concat
  · -- The rotation is the new operation.
    obtain ⟨rfl, last⟩ := List.append_inj' split rfl
    obtain rfl : op = .rotation r := List.head_eq_of_cons_eq last
    refine ⟨r.axis, rfl, folds.1, folds.2, ?_⟩
    rw [← size]
    exact List.getElem?_concat_length
  · -- The rotation was there before, and the new operation is the last one behind it.
    rw [List.concat_eq_append, ← List.cons_append, ← List.append_assoc] at split
    obtain ⟨rfl, last⟩ := List.append_inj' split rfl
    obtain rfl : op = op' := List.head_eq_of_cons_eq last
    obtain ⟨q, conjugated, wide, isDiagonal, found⟩ := h before r after rfl
    have gates : StreamOp.gates (after.concat op) = StreamOp.gates after ++ StreamOp.gates [op] := by
      rw [List.concat_eq_append]
      exact List.filterMap_append
    rw [gates, List.filter_append, Pauli.conjugate_append, conjugated]
    cases op with
    | gate g =>
      obtain ⟨q', turned, wide', isDiagonal', passed⟩ :=
        Pauli.exists_conjugate_gate isDiagonal (wide ▸ folds)
      refine ⟨q', turned, wide'.trans wide, isDiagonal', ?_⟩
      rw [Folded.absorbed, PhasePolynomial.get?_passGate, found, Option.map_some, passed]
    | rotation r' =>
      have inside := (List.getElem?_eq_some_iff.mp found).1
      exact ⟨q, rfl, wide, isDiagonal, (List.getElem?_append_left inside).trans found⟩

theorem tracks_foldl {width : Nat} {stream : List StreamOp}
    (folds : ∀ op ∈ stream, op.Folds width) :
    (stream.foldl Folded.absorbed ⟨.empty width, []⟩).Tracks stream := by
  induction stream using List.reverseRecOn with
  | nil => exact fun before r after split => by cases before <;> cases split
  | append_singleton stream op ih =>
    rw [List.forall_mem_append] at folds
    rw [List.foldl_append]
    apply (ih folds.1).absorbed
    · rw [size_foldl]
      exact Nat.zero_add _
    · rw [width_foldl]
      exact folds.2 op (List.mem_singleton.mpr rfl)

end Folded

/-- **Folding conjugates axes.** Where a stream can be folded, the Clifford circuit is its gates
in order, and there is one term for each rotation, in order, with its flips and its sign. The
support of the term is the Z bits of the axis, carried through the CX gates that stand behind the
rotation; there are no X bits. -/
theorem folding_conjugates_axes {stream : List StreamOp} {width : Nat} {f : Folded}
    (folded : Folded.ofStream stream width = .ok f) :
    f.clifford = StreamOp.gates stream ∧ f.poly.width = width ∧
    f.poly.size = (StreamOp.rotations stream).length ∧
    ∀ before r after, stream = before ++ .rotation r :: after →
      ∃ q, r.axis.conjugate ((StreamOp.gates after).filter Gate.isCX) = .ok q ∧
        (∀ b ∈ q.xBits, b = false) ∧
        f.poly.get? (StreamOp.rotations before).length = some ⟨q.zBits, r.flips, r.sign⟩ := by
  obtain ⟨folds, rfl⟩ := Folded.ofStream_eq_ok_iff.mp folded
  refine ⟨Folded.clifford_foldl .., Folded.width_foldl .., ?_, ?_⟩
  · rw [Folded.size_foldl]
    exact Nat.zero_add _
  · intro before r after split
    obtain ⟨q, conjugated, -, isDiagonal, found⟩ := Folded.tracks_foldl folds before r after split
    exact ⟨q, conjugated, Pauli.xBits_of_isDiagonal isDiagonal, found⟩

/-- A CX gate whose qubits agree takes the Z from its qubit, for the rotation in front of it
only. Other gates, also those that do not commute with a rotation, leave the supports alone. -/
theorem folding_of_cx_on_one_qubit :
    let first : Rotation := ⟨⟨[.I, .Z]⟩, [2], false⟩
    let second : Rotation := ⟨⟨[.I, .Z]⟩, [0, 1], true⟩
    let after : List StreamOp := [.gate (.cx 0 1), .gate (.h 0), .gate (.cx 1 1), .gate (.meas 1 0),
      .rotation second]
    ∃ f q, Folded.ofStream (.rotation first :: after) 2 = .ok f ∧
      f.clifford = [.cx 0 1, .h 0, .cx 1 1, .meas 1 0] ∧
      first.axis.conjugate [.cx 0 1, .cx 1 1] = .ok q ∧ (∀ b ∈ q.xBits, b = false) ∧
      f.poly.get? 0 = some ⟨q.zBits, [2], false⟩ ∧ q.zBits = [true, false] ∧
      f.poly.get? 1 = some ⟨[false, true], [0, 1], true⟩ := by
  intro first second after
  obtain ⟨f, folded⟩ : ∃ f, Folded.ofStream (.rotation first :: after) 2 = .ok f := ⟨_, rfl⟩
  obtain ⟨clifford, -, -, terms⟩ := folding_conjugates_axes folded
  obtain ⟨q, conjugated, diagonal, found⟩ := terms [] first after rfl
  obtain ⟨q', conjugated', -, found'⟩ := terms (.rotation first :: after.take 4) second [] rfl
  cases conjugated
  cases conjugated'
  exact ⟨f, _, folded, clifford, rfl, diagonal, found, by decide, found'⟩

end HadamardFree
