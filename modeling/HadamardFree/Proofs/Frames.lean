import HadamardFree.Proofs.Exchange
import HadamardFree.Proofs.Reduction

/-!
# Each operator in its frame

The pieces of a network for a list of operators are never undone, so an operator meets all pieces
before its own. What its own piece does depends on what they have made of it:

* `Network.getElem?_reducedSteps`: the step of an operator, from the frame of the pieces before;
* `Pauli.reduction_of_diagonal`, `Pauli.reduction_of_x`: the piece of an operator without and with
  an X part;
* `pieces_diagonalize_operators`: for every list of texts of one length, what each step holds.
-/

namespace HadamardFree

namespace Pauli

variable {p : Pauli}

theorem true_mem_xBits : true ∈ p.xBits ↔ p.xQubits ≠ [] := by
  constructor
  · intro h
    obtain ⟨a, member, hx⟩ := List.mem_map.mp h
    obtain ⟨k, found⟩ := List.getElem?_of_mem member
    have letter : p.letter k = a := by
      rw [Pauli.letter, List.getD_eq_getElem?_getD, found, Option.getD_some]
    have listed : k ∈ p.xQubits := mem_xQubits.mpr (by rw [letter, hx])
    exact List.ne_nil_of_mem listed
  · intro h
    obtain ⟨k, listed⟩ := List.exists_mem_of_ne_nil _ h
    have found := get?_eq_letter (lt_size_of_mem_xQubits listed)
    exact List.mem_map.mpr ⟨_, List.mem_of_getElem? found, mem_xQubits.mp listed⟩

/-- An operator that is diagonal already needs no piece. -/
theorem reduction_of_diagonal (none : true ∉ p.xBits) : p.reduction = [] := by
  have empty : p.xQubits = [] := by
    by_contra other
    exact none (true_mem_xBits.mpr other)
  rw [reduction, empty]
  rfl

/-- The piece of any other operator turns one qubit, at its end, from X to Z. -/
theorem reduction_of_x (part : true ∈ p.xBits) :
    ∃ before control, p.reduction = before ++ [.h control] ∧
      (p.through p.reduction).get? control = some .Z ∧
      ∀ g ∈ before, (∃ k, g = .s k) ∨ ∃ c t, c ≠ t ∧ g = .cx c t := by
  rcases List.eq_nil_or_concat' p.xQubits with none | ⟨targets, control, gather⟩
  · exact absurd none (true_mem_xBits.mp part)
  have inside : control < p.size := lt_size_of_mem_xQubits (by simp [gather])
  refine ⟨_, control, reduction_of_gather gather, ?_, ?_⟩
  · rw [get?_eq_letter (by simpa using inside), letter_reduction gather, if_pos rfl]
  · intro g hg
    obtain ⟨t, ht, rfl⟩ | rfl := mem_before hg
    · refine .inr ⟨control, t, ?_, rfl⟩
      rintro rfl
      exact notMem_targets gather ht
    · exact .inl ⟨control, rfl⟩

end Pauli

namespace Network

/-- Step `i` reduces operator `i` as it is behind all pieces before. -/
theorem getElem?_reducedSteps {frame : List Gate} {paulis : List Pauli} {i : Nat} {s : Step}
    (h : (reducedSteps frame paulis)[i]? = some s) :
    ∃ p, paulis[i]? = some p ∧
      let current := p.through (frame ++ ((reducedSteps frame paulis).take i).flatMap Step.piece)
      s = ⟨current.reduction, current.through current.reduction, false⟩ := by
  induction paulis generalizing frame i with
  | nil => cases h
  | cons p rest ih =>
    cases i with
    | zero =>
      cases h
      refine ⟨p, rfl, ?_⟩
      rw [List.take_zero, List.flatMap_nil, List.append_nil]
    | succ i =>
      -- For the rest, the piece of the first operator belongs to the frame.
      rw [reducedSteps, List.getElem?_cons_succ] at h
      obtain ⟨p', found, same⟩ := ih h
      refine ⟨p', found, ?_⟩
      rw [reducedSteps, List.take_succ_cons, List.flatMap_cons, ← List.append_assoc]
      exact same

/-- What step `i` holds, for operators of one size: the operator in the frame of the pieces before
is reduced by the piece of the step, and its axis is the operator behind that piece. -/
theorem conjugate_frame {n : Nat} {paulis : List Pauli} (sizes : ∀ p ∈ paulis, p.size = n)
    {i : Nat} {s : Step} (found : (reducedSteps [] paulis)[i]? = some s) :
    ∃ p current, paulis[i]? = some p ∧
      p.conjugate (((reducedSteps [] paulis).take i).flatMap Step.piece) = .ok current ∧
      p.conjugate (((reducedSteps [] paulis).take (i + 1)).flatMap Step.piece) = .ok s.axis ∧
      s = ⟨current.reduction, current.through current.reduction, false⟩ := by
  obtain ⟨p, listed, step⟩ := getElem?_reducedSteps found
  rw [List.nil_append] at step
  have carries : ∀ s ∈ reducedSteps [] paulis, ∀ g ∈ s.piece, g.Carries p.size := by
    rw [sizes p (List.mem_of_getElem? listed)]
    exact fun s hs => (reduced_of_mem sizes s hs).piece
  have frame : ∀ g ∈ ((reducedSteps [] paulis).take i).flatMap Step.piece, g.Carries p.size := by
    intro g hg
    obtain ⟨s', hs', hg'⟩ := List.mem_flatMap.mp hg
    exact carries s' (List.mem_of_mem_take hs') g hg'
  have own : ∀ g ∈ s.piece, g.Carries p.size := carries s (List.mem_of_getElem? found)
  have upTo : ((reducedSteps [] paulis).take (i + 1)).flatMap Step.piece =
      ((reducedSteps [] paulis).take i).flatMap Step.piece ++ s.piece := by
    rw [List.take_add_one, found, List.flatMap_append]
    simp
  refine ⟨p, _, listed, Pauli.conjugate_eq_through frame, ?_, step⟩
  rw [upTo, Pauli.conjugate_eq_through (List.forall_mem_append.mpr ⟨frame, own⟩),
    Pauli.through_append frame, step]

end Network

/-- **The network of a list of operators diagonalizes it.** Every list of texts over the four
letters, all of one length, is read and gives a network with one step for each text. No rotation is
negated. The axis of a step is its operator, conjugated by all pieces up to its own, and has only I
and Z. If the pieces before have left no X part, its own piece is empty; if not, it ends with its
only H gate, on a qubit where the axis is Z, and its other gates are S, or CX between two qubits. -/
theorem pieces_diagonalize_operators {n : Nat} {texts : List String}
    (letters : ∀ t ∈ texts, ∀ c ∈ t.toList, c ∈ ['I', 'X', 'Y', 'Z'])
    (lengths : ∀ t ∈ texts, t.length = n) :
    ∃ paulis network, texts.mapM Pauli.read = .ok paulis ∧
      Network.ofPaulis paulis = .ok network ∧ network.size = texts.length ∧
      ∀ i s, network.get? i = some s → ∃ p current,
        paulis[i]? = some p ∧ texts[i]? = some p.text ∧ s.sign = false ∧
        p.conjugate ((network.steps.take i).flatMap Step.piece) = .ok current ∧
        p.conjugate ((network.steps.take (i + 1)).flatMap Step.piece) = .ok s.axis ∧
        s.axis.isDiagonal = true ∧
        (true ∉ current.xBits → s.piece = []) ∧
        (true ∈ current.xBits → ∃ before control, s.piece = before ++ [.h control] ∧
          s.axis.get? control = some .Z ∧
          ∀ g ∈ before, (∃ k, g = .s k) ∨ ∃ c t, c ≠ t ∧ g = .cx c t) := by
  obtain ⟨paulis, read, written, sizes⟩ := Pauli.exists_mapM_read letters lengths
  refine ⟨paulis, ⟨Network.reducedSteps [] paulis⟩, read, Network.ofPaulis_eq sizes, ?_, ?_⟩
  · rw [Network.size, Network.length_reducedSteps, ← written, List.length_map]
  · intro i s found
    have reduced := Network.reduced_of_mem sizes s (List.mem_of_getElem? found)
    obtain ⟨p, current, listed, frame, axis, step⟩ := Network.conjugate_frame sizes found
    refine ⟨p, current, listed, ?_, reduced.sign, frame, axis, reduced.isDiagonal, ?_, ?_⟩
    · rw [← written, List.getElem?_map, listed]
      rfl
    · intro none
      rw [step]
      exact Pauli.reduction_of_diagonal none
    · intro part
      rw [step]
      exact Pauli.reduction_of_x part

/-- Three operators that all have an X part when their turn comes. The third has gone through two
pieces by then, and needs an S gate. -/
theorem pieces_diagonalize_third_operator :
    let texts := ["YXY", "ZZX", "XYI"]
    (∀ t ∈ texts, ∀ c ∈ t.toList, c ∈ ['I', 'X', 'Y', 'Z']) ∧ (∀ t ∈ texts, t.length = 3) ∧
    ∃ paulis network s p current, texts.mapM Pauli.read = .ok paulis ∧
      Network.ofPaulis paulis = .ok network ∧ network.get? 2 = some s ∧ paulis[2]? = some p ∧
      p.conjugate ((network.steps.take 2).flatMap Step.piece) = .ok current ∧
      true ∈ current.xBits ∧
      p.conjugate ((network.steps.take 3).flatMap Step.piece) = .ok s.axis ∧
      s.axis.isDiagonal = true ∧ s.piece = [.cx 2 1, .s 2] ++ [.h 2] ∧
      s.axis.get? 2 = some .Z := by
  intro texts
  have letters : ∀ t ∈ texts, ∀ c ∈ t.toList, c ∈ ['I', 'X', 'Y', 'Z'] := by simp [texts]
  have lengths : ∀ t ∈ texts, t.length = 3 := by decide
  obtain ⟨paulis, network, read, built, -, steps⟩ := pieces_diagonalize_operators letters lengths
  have texts' : texts.mapM Pauli.read =
      .ok [⟨[.Y, .X, .Y]⟩, ⟨[.Z, .Z, .X]⟩, ⟨[.X, .Y, .I]⟩] := rfl
  cases texts'.symm.trans read
  have network' : Network.ofPaulis [⟨[.Y, .X, .Y]⟩, ⟨[.Z, .Z, .X]⟩, ⟨[.X, .Y, .I]⟩] = .ok
      ⟨[⟨[.cx 2 0, .cx 2 1, .h 2], ⟨[.Z, .I, .Z]⟩, false⟩,
        ⟨[.cx 1 0, .h 1], ⟨[.Z, .Z, .Z]⟩, false⟩,
        ⟨[.cx 2 1, .s 2, .h 2], ⟨[.I, .Z, .Z]⟩, false⟩]⟩ := rfl
  cases network'.symm.trans built
  obtain ⟨p, current, listed, -, -, frame, axis, isDiagonal, empty, -⟩ := steps 2 _ rfl
  have part : true ∈ current.xBits := by
    by_contra none
    cases empty none
  exact ⟨letters, lengths, _, _, _, p, current, rfl, rfl, rfl, listed, frame, part, axis,
    isDiagonal, rfl, rfl⟩

end HadamardFree
