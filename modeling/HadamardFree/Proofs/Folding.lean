import HadamardFree.PhasePolynomial.Folding
import HadamardFree.Proofs.Wave

/-!
# Folding keeps the meaning

A stream without H gates, run in its own order, is the Clifford circuit followed by
the phase polynomial that it is folded into:

* `Folded.ofStream_eq_ok_iff`: the streams that can be folded, and what comes out;
* `Folded.act_absorbed`: one more gate or rotation;
* `Folded.act_foldl`: whole streams;
* `Folded.kept_foldl`: every term has the flips and the sign of its rotation.
-/

namespace HadamardFree

open Function (update)

theorem Pauli.getD_zBits (p : Pauli) (k : Nat) : p.zBits.getD k false = (p.letter k).z := by
  by_cases hk : k < p.letters.length
  · simp [zBits, letter, List.getD_eq_getElem?_getD, hk]
  · simp [zBits, letter, List.getD_eq_getElem?_getD, hk, Letter.z]

/-! ## Which streams can be folded -/

/-- What can be folded on a register of the given width. -/
def StreamOp.Folds (width : Nat) : StreamOp → Prop
  | .gate g => g.fits width = true
  | .rotation r => r.axis.size = width ∧ r.axis.isDiagonal = true

/-- What absorbing gives where it succeeds. -/
def Folded.absorbed (f : Folded) : StreamOp → Folded
  | .gate g => ⟨f.poly.passGate g, f.clifford ++ [g]⟩
  | .rotation r =>
    ⟨⟨f.poly.width, f.poly.terms ++ [⟨r.axis.zBits, r.flips, r.sign⟩]⟩, f.clifford⟩

theorem Pauli.support_eq_ok_iff {p : Pauli} {rotation width : Nat} {bits : List Bool} :
    p.support rotation width = .ok bits ↔
      p.size = width ∧ p.isDiagonal = true ∧ bits = p.zBits := by
  have none_iff : p.letters.zipIdx.find? (fun x => !x.1.isDiagonal) = none ↔
      p.isDiagonal = true := by
    rw [List.find?_eq_none, isDiagonal, List.all_eq_true]
    constructor
    · intro h a ha
      obtain ⟨k, hk⟩ := List.getElem?_of_mem ha
      simpa using h (a, k) (List.mem_zipIdx_iff_getElem?.mpr hk)
    · rintro h ⟨a, k⟩ hk
      simpa using h a (List.mem_of_getElem? (List.mem_zipIdx_iff_getElem?.mp hk))
  rw [support]
  by_cases size : p.size = width
  · rw [if_pos size]
    split
    · rename_i found
      have some_ne : ¬ p.isDiagonal = true :=
        fun h => Option.some_ne_none _ (found.symm.trans (none_iff.mpr h))
      simp [some_ne]
    · rename_i found
      simp [size, none_iff.mp found, eq_comm]
  · simp [size]

namespace Folded

@[simp] theorem width_absorbed (f : Folded) (op : StreamOp) :
    (f.absorbed op).poly.width = f.poly.width := by
  cases op with
  | gate g => cases g <;> rfl
  | rotation r => rfl

theorem absorb_eq_ok_iff {f f' : Folded} {op : StreamOp} :
    f.absorb op = .ok f' ↔ op.Folds f.poly.width ∧ f' = f.absorbed op := by
  cases op with
  | gate g =>
    rw [absorb]
    by_cases fits : g.fits f.poly.width = true
    · simp [fits, StreamOp.Folds, absorbed, eq_comm]
    · simp [fits, StreamOp.Folds]
  | rotation r =>
    rw [absorb]
    cases support : r.axis.support f.poly.size f.poly.width with
    | error e =>
      have bad : ¬ (r.axis.size = f.poly.width ∧ r.axis.isDiagonal = true) := by
        rintro ⟨size, isDiagonal⟩
        have good : r.axis.support f.poly.size f.poly.width = .ok r.axis.zBits :=
          Pauli.support_eq_ok_iff.mpr ⟨size, isDiagonal, rfl⟩
        rw [support] at good
        cases good
      simp [StreamOp.Folds, bind, Except.bind, bad]
    | ok bits =>
      obtain ⟨size, isDiagonal, rfl⟩ := Pauli.support_eq_ok_iff.mp support
      have length : r.axis.zBits.length = f.poly.width := by
        rw [← size, Pauli.zBits, List.length_map, Pauli.size]
      simp [StreamOp.Folds, bind, Except.bind, PhasePolynomial.push, length, size, isDiagonal,
        pure, Except.pure, absorbed, eq_comm]

theorem foldlM_eq_ok_iff {f f' : Folded} {stream : List StreamOp} :
    stream.foldlM absorb f = .ok f' ↔
      (∀ op ∈ stream, op.Folds f.poly.width) ∧ f' = stream.foldl absorbed f := by
  induction stream generalizing f with
  | nil => simp [pure, Except.pure, eq_comm]
  | cons op stream ih =>
    rw [List.foldlM_cons, List.foldl_cons, List.forall_mem_cons]
    cases first : f.absorb op with
    | error e =>
      have bad : ¬ op.Folds f.poly.width := by
        intro folds
        have good := absorb_eq_ok_iff.mpr ⟨folds, rfl⟩
        rw [first] at good
        cases good
      simp [bind, Except.bind, bad]
    | ok g =>
      obtain ⟨folds, rfl⟩ := absorb_eq_ok_iff.mp first
      have rest := ih (f := f.absorbed op)
      rw [width_absorbed] at rest
      simpa [bind, Except.bind, folds] using rest

/-- A stream can be folded exactly if every gate lies on the register and every axis
spans it and is diagonal. -/
theorem ofStream_eq_ok_iff {stream : List StreamOp} {width : Nat} {f : Folded} :
    ofStream stream width = .ok f ↔
      (∀ op ∈ stream, op.Folds width) ∧ f = stream.foldl absorbed ⟨.empty width, []⟩ :=
  foldlM_eq_ok_iff

theorem ofStream?_eq_some (stream : List StreamOp) {width : Nat} (narrow : width < byteLimit) :
    ofStream? stream width = some (ofStream stream width) := by
  have room : fitsLetters width = true := decide_eq_true narrow
  rw [ofStream?, if_pos room]

theorem ofStream?_eq_none (stream : List StreamOp) {width : Nat} (wide : byteLimit ≤ width) :
    ofStream? stream width = none := by
  have refused : ¬ fitsLetters width = true := by simpa [fitsLetters] using wide
  rw [ofStream?, if_neg refused]

end Folded

/-! ## Meaning -/

namespace Wave

/-- Runs a stream, where rotation number `first` and those after it turn by the
given angles. -/
noncomputable def stream (width : Nat) (angle : Nat → ℝ) (first : Nat) :
    List StreamOp → Wave → Wave
  | [], ψ => ψ
  | .gate g :: rest, ψ => stream width angle first rest (gate g ψ)
  | .rotation r :: rest, ψ =>
    stream width angle (first + 1) rest
      (rotate width (fun k => (r.axis.letter k).z) (angle first) ψ)

noncomputable def terms (width : Nat) (angle : Nat → ℝ) (first : Nat) :
    List Term → Wave → Wave
  | [], ψ => ψ
  | t :: rest, ψ =>
    terms width angle (first + 1) rest
      (rotate width (fun k => t.support.getD k false) (angle first) ψ)

theorem terms_append (width : Nat) (angle : Nat → ℝ) (first : Nat) (ts more : List Term)
    (ψ : Wave) :
    terms width angle first (ts ++ more) ψ =
      terms width angle (first + ts.length) more (terms width angle first ts ψ) := by
  induction ts generalizing first ψ with
  | nil => rfl
  | cons t ts ih =>
    rw [List.cons_append, terms, terms, ih, List.length_cons, Nat.add_right_comm, Nat.add_assoc]

/-- A rotation in front of a CX gate is one behind it with the support that takes the
gate into account. -/
theorem cx_rotate {n c t : Nat} (hc : c < n) (ht : t < n) (distinct : c ≠ t) (z : Nat → Bool)
    (angle : ℝ) (ψ : Wave) :
    cx c t (rotate n z angle ψ) = rotate n (update z c (z c ^^ z t)) angle (cx c t ψ) := by
  have parities : ∀ v : Nat → Bool, (parity n fun k => update v t (v t ^^ v c) k && z k) =
      parity n fun k => v k && update z c (z c ^^ z t) k := by
    intro v
    have left : (fun k => update v t (v t ^^ v c) k && z k) =
        update (fun k => v k && z k) t ((v t ^^ v c) && z t) := by
      funext k
      by_cases same : k = t
      · subst same
        simp
      · simp [same]
    have right : (fun k => v k && update z c (z c ^^ z t) k) =
        update (fun k => v k && z k) c (v c && (z c ^^ z t)) := by
      funext k
      by_cases same : k = c
      · subst same
        simp
      · simp [same]
    rw [left, right, parity_update _ _ ht, parity_update _ _ hc]
    cases v t <;> cases v c <;> cases z t <;> cases z c <;> rfl
  funext v
  simp only [cx, rotate, diagonal, parities]

theorem diagonal_comm (f g : (Nat → Bool) → ℂ) (ψ : Wave) :
    diagonal f (diagonal g ψ) = diagonal g (diagonal f ψ) := by
  funext v
  simp only [diagonal]
  ring

end Wave

/-- S and CZ gates, and CX gates between different qubits. -/
def Gate.Middle (g : Gate) : Prop :=
  g.isH = false ∧ (∀ k, g ≠ .cx k k) ∧ ∀ k id, g ≠ .meas k id

theorem Term.support_passCX {c t : Nat} {term : Term} (hc : c < term.support.length) :
    (fun k => (term.passCX c t).support.getD k false) =
      update (fun k => term.support.getD k false) c
        (term.support.getD c false ^^ term.support.getD t false) := by
  funext k
  by_cases same : k = c
  · subst same
    simp [passCX, List.getD_eq_getElem?_getD, hc]
  · simp [passCX, List.getD_eq_getElem?_getD, same, Ne.symm same]

namespace Folded

/-- Every term spans the register. -/
def Wide (f : Folded) : Prop :=
  ∀ t ∈ f.poly.terms, t.support.length = f.poly.width

theorem Wide.absorbed {f : Folded} (h : f.Wide) {op : StreamOp} (folds : op.Folds f.poly.width) :
    (f.absorbed op).Wide := by
  intro t ht
  rw [width_absorbed]
  cases op with
  | gate g =>
    cases g with
    | cx c d =>
      obtain ⟨t', ht', rfl⟩ := List.mem_map.mp ht
      rw [Term.length_support_passCX]
      exact h t' ht'
    | h | s | cz | meas => exact h t ht
  | rotation r =>
    rcases List.mem_append.mp ht with old | new
    · exact h t old
    · rw [List.mem_singleton.mp new, ← folds.1, Pauli.zBits, List.length_map, Pauli.size]

/-- First the Clifford circuit, then the terms. -/
noncomputable def act (angle : Nat → ℝ) (f : Folded) (ψ : Wave) : Wave :=
  (ψ.gates f.clifford).terms f.poly.width angle 0 f.poly.terms

theorem terms_passCX {n c t : Nat} {ts : List Term} (hc : c < n) (ht : t < n) (distinct : c ≠ t)
    (wide : ∀ term ∈ ts, term.support.length = n) (angle : Nat → ℝ) (first : Nat) (ψ : Wave) :
    (ψ.cx c t).terms n angle first (ts.map (Term.passCX c t)) =
      (ψ.terms n angle first ts).cx c t := by
  induction ts generalizing first ψ with
  | nil => rfl
  | cons term ts ih =>
    have length : term.support.length = n := wide term (List.mem_cons_self ..)
    have rest : ∀ term' ∈ ts, term'.support.length = n :=
      fun term' h => wide term' (List.mem_cons_of_mem _ h)
    rw [List.map_cons, Wave.terms, Wave.terms, Term.support_passCX (length ▸ hc),
      ← Wave.cx_rotate hc ht distinct, ih rest]

theorem terms_diagonal (n : Nat) (angle : Nat → ℝ) (first : Nat) (ts : List Term)
    (f : (Nat → Bool) → ℂ) (ψ : Wave) :
    (ψ.diagonal f).terms n angle first ts = (ψ.terms n angle first ts).diagonal f := by
  induction ts generalizing first ψ with
  | nil => rfl
  | cons term ts ih =>
    rw [Wave.terms, Wave.terms, ← ih]
    congr 1
    exact Wave.diagonal_comm ..

/-- One more gate acts after everything before it. -/
theorem act_gate {f : Folded} {g : Gate} (wide : f.Wide) (fits : g.fits f.poly.width = true)
    (middle : g.Middle) (angle : Nat → ℝ) (ψ : Wave) :
    (f.absorbed (.gate g)).act angle ψ = (f.act angle ψ).gate g := by
  have last : ψ.gates (f.clifford ++ [g]) = (ψ.gates f.clifford).gate g :=
    Wave.gates_append ..
  have inside := Gate.fits_iff.mp fits
  rw [act, width_absorbed, absorbed, last, act]
  cases g with
  | h k => cases middle.1
  | s k => exact terms_diagonal ..
  | cx c t =>
    have distinct : c ≠ t := fun same => middle.2.1 c (by rw [same])
    simp only [Wave.gate, distinct, if_false]
    exact terms_passCX (inside c (by simp [Gate.qubits])) (inside t (by simp [Gate.qubits]))
      distinct wide angle 0 _
  | cz a b => exact terms_diagonal ..
  | meas k id => exact absurd rfl (middle.2.2 k id)

/-- One more rotation acts after everything before it. -/
theorem act_rotation (f : Folded) (r : Rotation) (angle : Nat → ℝ) (ψ : Wave) :
    (f.absorbed (.rotation r)).act angle ψ =
      (f.act angle ψ).rotate f.poly.width (fun k => (r.axis.letter k).z) (angle f.poly.size) := by
  rw [act, width_absorbed, absorbed]
  simp only [Wave.terms_append, Wave.terms, Pauli.getD_zBits, Nat.zero_add]
  rfl

/-- **Folding keeps the meaning.** A stream run in its own order does what the folded
circuit does. -/
theorem act_foldl {f : Folded} {stream : List StreamOp} (wide : f.Wide)
    (folds : ∀ op ∈ stream, op.Folds f.poly.width)
    (middle : ∀ g, .gate g ∈ stream → g.Middle) (angle : Nat → ℝ) (ψ : Wave) :
    (stream.foldl absorbed f).act angle ψ =
      (f.act angle ψ).stream f.poly.width angle f.poly.size stream := by
  induction stream generalizing f with
  | nil => rfl
  | cons op stream ih =>
    have first : op.Folds f.poly.width := folds op (List.mem_cons_self ..)
    have rest : ∀ op' ∈ stream, op'.Folds (f.absorbed op).poly.width := by
      intro op' h
      rw [width_absorbed]
      exact folds op' (List.mem_cons_of_mem _ h)
    rw [List.foldl_cons, ih (wide.absorbed first) rest fun g h => middle g (List.mem_cons_of_mem _ h),
      width_absorbed]
    cases op with
    | gate g =>
      have size : (f.absorbed (.gate g)).poly.size = f.poly.size := by
        cases g with
        | cx c t => exact PhasePolynomial.size_passCX ..
        | h | s | cz | meas => rfl
      rw [Wave.stream, size, act_gate wide first (middle g (List.mem_cons_self ..))]
    | rotation r =>
      have size : (f.absorbed (.rotation r)).poly.size = f.poly.size + 1 := by
        simp [absorbed, PhasePolynomial.size]
      rw [Wave.stream, size, act_rotation]

theorem width_foldl (f : Folded) (stream : List StreamOp) :
    (stream.foldl absorbed f).poly.width = f.poly.width := by
  induction stream generalizing f with
  | nil => rfl
  | cons op stream ih => rw [List.foldl_cons, ih, width_absorbed]

theorem clifford_foldl (f : Folded) (stream : List StreamOp) :
    (stream.foldl absorbed f).clifford = f.clifford ++ StreamOp.gates stream := by
  induction stream generalizing f with
  | nil => simp [StreamOp.gates]
  | cons op stream ih =>
    rw [List.foldl_cons, ih]
    cases op with
    | gate g => exact List.append_assoc ..
    | rotation r => rfl

/-- A folded stream does what the stream does. -/
theorem act_ofStream {stream : List StreamOp} {width : Nat} {f : Folded}
    (folded : ofStream stream width = .ok f) (middle : ∀ g, .gate g ∈ stream → g.Middle)
    (angle : Nat → ℝ) (ψ : Wave) :
    (ψ.gates f.clifford).terms width angle 0 f.poly.terms = ψ.stream width angle 0 stream := by
  obtain ⟨folds, rfl⟩ := ofStream_eq_ok_iff.mp folded
  have wide : (Folded.mk (.empty width) []).Wide := fun t ht => by cases ht
  have meaning := act_foldl wide folds middle angle ψ
  rw [act, width_foldl] at meaning
  exact meaning

theorem mem_clifford {stream : List StreamOp} {width : Nat} {f : Folded}
    (folded : ofStream stream width = .ok f) {g : Gate} (hg : g ∈ f.clifford) :
    .gate g ∈ stream := by
  obtain ⟨-, rfl⟩ := ofStream_eq_ok_iff.mp folded
  rw [clifford_foldl, List.nil_append, StreamOp.gates, List.mem_filterMap] at hg
  obtain ⟨op, hop, found⟩ := hg
  cases op with
  | gate g' =>
    cases found
    exact hop
  | rotation r => cases found

/-- Terms keep the flips and signs of their rotations. -/
theorem kept_foldl (f : Folded) (stream : List StreamOp) :
    (stream.foldl absorbed f).poly.terms.map (fun t => (t.flips, t.sign)) =
      f.poly.terms.map (fun t => (t.flips, t.sign)) ++
        (StreamOp.rotations stream).map fun r => (r.flips, r.sign) := by
  induction stream generalizing f with
  | nil => simp [StreamOp.rotations]
  | cons op stream ih =>
    rw [List.foldl_cons, ih]
    cases op with
    | gate g =>
      have same : (f.absorbed (.gate g)).poly.terms.map (fun t => (t.flips, t.sign)) =
          f.poly.terms.map fun t => (t.flips, t.sign) := by
        cases g with
        | cx c t =>
          simp only [absorbed, PhasePolynomial.passGate, PhasePolynomial.passCX, List.map_map]
          rfl
        | h | s | cz | meas => rfl
      rw [same]
      rfl
    | rotation r =>
      rw [absorbed, List.map_append, List.append_assoc]
      rfl

theorem size_foldl (f : Folded) (stream : List StreamOp) :
    (stream.foldl absorbed f).poly.size = f.poly.size + (StreamOp.rotations stream).length := by
  have lengths := congrArg List.length (kept_foldl f stream)
  simpa [PhasePolynomial.size] using lengths

theorem negated_foldl (f : Folded) (stream : List StreamOp) :
    (stream.foldl absorbed f).poly.terms.map Term.negated? =
      f.poly.terms.map Term.negated? ++ (StreamOp.rotations stream).map Rotation.negated? := by
  have kept := congrArg (List.map fun x outcomes => flippedSign? x.2 outcomes x.1)
    (kept_foldl f stream)
  simp only [List.map_append, List.map_map] at kept
  exact kept

end Folded

end HadamardFree
