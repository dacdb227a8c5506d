import HadamardFree.Proofs.Folding

/-!
# Folding a phase polynomial again

A phase polynomial is built by pushing terms and by passing CX gates to the front of all terms so
far. Written out as a stream it holds rotations only, so there is nothing left to fold.

* `PhasePolynomial.call`, `PhasePolynomial.run`: one call, and calls one after the other;
* `PhasePolynomial.Columns`: the same polynomial as a table of supports with the flips and the
  signs beside it, three lists that every call changes one by one;
* `PhasePolynomial.call_columns`, `PhasePolynomial.run_columns`: the columns follow the terms
  through one call, and through any number of calls;
* `PhasePolynomial.Spans.ran`: every term of a polynomial that was built spans the register;
* `Folded.ofStream_stream`: such a polynomial is what its own stream is folded into;
* `refolding_is_identity`: all of it for one sequence of calls.
-/

namespace HadamardFree

namespace PhasePolynomial

/-! ## Calls -/

/-- What can be asked of a phase polynomial. -/
inductive Call where
  | push (t : Term)
  | passCX (control target : Nat)
  deriving DecidableEq, Repr

inductive Answer where
  | done
  | refused (cause : FoldError)
  deriving DecidableEq, Repr

/-- The answers to calls one after the other, and what there is after all of them. There is
nothing if one of the calls has no answer. -/
def Call.run {α : Type} (call : α → Call → Option (Answer × α)) (a : α) :
    List Call → Option (List Answer × α)
  | [] => some ([], a)
  | c :: calls =>
    match call a c with
    | none => none
    | some (answer, a) => (run call a calls).map fun (answers, a) => (answer :: answers, a)

theorem Call.run_append {α : Type} {call : α → Call → Option (Answer × α)} {a b : α}
    {calls : List Call} {answers : List Answer} (h : run call a calls = some (answers, b))
    (more : List Call) :
    run call a (calls ++ more) =
      (run call b more).map fun (answers', b') => (answers ++ answers', b') := by
  induction calls generalizing a answers with
  | nil =>
    cases h
    simp
  | cons c calls ih =>
    simp only [List.cons_append, run] at h ⊢
    cases first : call a c with
    | none => simp [first] at h
    | some x =>
      simp only [first, Option.map_eq_some_iff] at h ⊢
      obtain ⟨⟨rest, b'⟩, ran, same⟩ := h
      cases same
      rw [ih ran, Option.map_map]
      rfl

/-- The answer to a call, and the polynomial after it. A term that is refused changes nothing; a
gate that leaves the register has no answer. -/
def call (poly : PhasePolynomial) : Call → Option (Answer × PhasePolynomial)
  | .push t =>
    match poly.push t with
    | .ok poly => some (.done, poly)
    | .error cause => some (.refused cause, poly)
  | .passCX c t => (poly.passCX? c t).map fun poly => (.done, poly)

def run (poly : PhasePolynomial) (calls : List Call) : Option (List Answer × PhasePolynomial) :=
  Call.run call poly calls

/-! ## Columns -/

/-- A phase polynomial laid out in columns: a table with one support in each row, and beside it
the flips and the signs. -/
structure Columns where
  width : Nat
  table : List (List Bool)
  flips : List (List Nat)
  signs : List Bool
  deriving DecidableEq, Repr

namespace Columns

def empty (width : Nat) : Columns :=
  ⟨width, [], [], []⟩

/-- Appends a row, which has to be as wide as the table. -/
def pushRow? (s : Columns) (row : List Bool) : Option Columns :=
  if row.length = s.width then some { s with table := s.table ++ [row] } else none

/-- Adds the target to the control, if there are such entries. -/
def passRow? (c t : Nat) (row : List Bool) : Option (List Bool) :=
  match row[c]?, row[t]? with
  | some _, some b => some (row.modify c (· ^^ b))
  | _, _ => none

/-- The row comes first. If it is refused, the flips and the sign are not looked at. -/
def call (s : Columns) : Call → Option (Answer × Columns)
  | .push t =>
    match s.pushRow? t.support with
    | none => some (.refused .shapeMismatch, s)
    | some s => some (.done, { s with flips := s.flips ++ [t.flips], signs := s.signs ++ [t.sign] })
  | .passCX c t => (s.table.mapM (passRow? c t)).map fun table => (.done, { s with table })

def run (s : Columns) (calls : List Call) : Option (List Answer × Columns) :=
  Call.run call s calls

end Columns

def columns (poly : PhasePolynomial) : Columns :=
  ⟨poly.width, poly.terms.map Term.support, poly.terms.map Term.flips, poly.terms.map Term.sign⟩

/-- Every term spans the register. -/
def Spans (poly : PhasePolynomial) : Prop :=
  ∀ t ∈ poly.terms, t.support.length = poly.width

variable {poly : PhasePolynomial}

theorem Columns.passRow?_eq (c t : Nat) (row : List Bool) :
    passRow? c t row =
      if c < row.length ∧ t < row.length then some (row.modify c (· ^^ row.getD t false))
      else none := by
  by_cases hc : c < row.length <;> by_cases ht : t < row.length <;>
    simp [passRow?, hc, ht, List.getD_eq_getElem?_getD]

theorem Columns.mapM_passRow? {width c target : Nat} (hc : c < width) (ht : target < width)
    {terms : List Term} (spans : ∀ t ∈ terms, t.support.length = width) :
    (terms.map Term.support).mapM (passRow? c target) =
      some ((terms.map (Term.passCX c target)).map Term.support) := by
  induction terms with
  | nil => rfl
  | cons t terms ih =>
    rw [List.forall_mem_cons] at spans
    have first : passRow? c target t.support = some (t.passCX c target).support := by
      rw [passRow?_eq, spans.1, if_pos ⟨hc, ht⟩]
      rfl
    simp [first, ih spans.2]

/-- The columns follow the terms through a call. -/
theorem call_columns (spans : poly.Spans) (c : Call) :
    poly.columns.call c = (poly.call c).map fun (answer, poly) => (answer, poly.columns) := by
  cases c with
  | push t =>
    by_cases wide : t.support.length = poly.width
    · simp [Columns.call, Columns.pushRow?, call, push, columns, wide]
    · simp [Columns.call, Columns.pushRow?, call, push, columns, wide]
  | passCX c target =>
    by_cases inside : c < poly.width ∧ target < poly.width
    · have passed := Columns.mapM_passRow? inside.1 inside.2 spans
      simp [Columns.call, call, passCX?, columns, inside, passed, passCX, Function.comp_def,
        Term.passCX]
    · -- The first row is already too short, if there is one.
      cases terms : poly.terms with
      | nil => simp [Columns.call, call, passCX?, passCX, columns, terms]
      | cons t rest =>
        have wide : t.support.length = poly.width := spans t (by simp [terms])
        have short : Columns.passRow? c target t.support = none := by
          rw [Columns.passRow?_eq, wide, if_neg inside]
        simp [Columns.call, call, passCX?, columns, terms, inside, short]

/-! ## Built polynomials -/

theorem spans_empty (width : Nat) : (empty width).Spans := by
  intro t ht
  cases ht

theorem call_push_of_ne {t : Term} (other : t.support.length ≠ poly.width) :
    poly.call (.push t) = some (.refused .shapeMismatch, poly) := by
  simp [call, push, other]

theorem call_push_of_eq {t : Term} (wide : t.support.length = poly.width) :
    poly.call (.push t) = some (.done, ⟨poly.width, poly.terms ++ [t]⟩) := by
  simp [call, push, wide]

theorem call_passCX {c target : Nat} (hc : c < poly.width) (ht : target < poly.width) :
    poly.call (.passCX c target) = some (.done, poly.passCX c target) := by
  simp [call, passCX?, hc, ht]

/-- Whatever a call does, all terms span the register after it. -/
theorem Spans.called (h : poly.Spans) {c : Call} {answer : Answer} {next : PhasePolynomial}
    (called : poly.call c = some (answer, next)) : next.width = poly.width ∧ next.Spans := by
  cases c with
  | push t =>
    by_cases wide : t.support.length = poly.width
    · rw [call_push_of_eq wide] at called
      cases called
      refine ⟨rfl, fun t' ht' => ?_⟩
      rcases List.mem_append.mp ht' with old | new
      · exact h t' old
      · rw [List.mem_singleton.mp new]
        exact wide
    · rw [call_push_of_ne wide] at called
      cases called
      exact ⟨rfl, h⟩
  | passCX c target =>
    obtain ⟨poly', passed, same⟩ := Option.map_eq_some_iff.mp called
    cases same
    simp only [passCX?, Option.ite_none_right_eq_some, Option.some.injEq] at passed
    obtain ⟨-, rfl⟩ := passed
    refine ⟨rfl, fun t' ht' => ?_⟩
    obtain ⟨t, ht, rfl⟩ := List.mem_map.mp ht'
    rw [Term.length_support_passCX]
    exact h t ht

/-- Calls whose gates stay on the register are all answered. -/
theorem Spans.ran (h : poly.Spans) {calls : List Call}
    (inside : ∀ c t, .passCX c t ∈ calls → c < poly.width ∧ t < poly.width) :
    ∃ answers next, poly.run calls = some (answers, next) ∧
      next.width = poly.width ∧ next.Spans := by
  unfold run
  induction calls generalizing poly with
  | nil => exact ⟨[], poly, rfl, rfl, h⟩
  | cons c calls ih =>
    obtain ⟨answer, next, called⟩ : ∃ answer next, poly.call c = some (answer, next) := by
      cases c with
      | push t =>
        by_cases wide : t.support.length = poly.width
        · exact ⟨_, _, call_push_of_eq wide⟩
        · exact ⟨_, _, call_push_of_ne wide⟩
      | passCX c target =>
        obtain ⟨hc, ht⟩ := inside c target (List.mem_cons_self ..)
        exact ⟨_, _, call_passCX hc ht⟩
    obtain ⟨width, spans⟩ := h.called called
    obtain ⟨answers, last, ran, width', spans'⟩ :=
      ih spans fun c t hct => width ▸ inside c t (List.mem_cons_of_mem _ hct)
    exact ⟨answer :: answers, last, by simp [Call.run, called, ran], width'.trans width, spans'⟩

/-- The columns follow the terms through any number of calls. -/
theorem run_columns (h : poly.Spans) (calls : List Call) :
    poly.columns.run calls =
      (poly.run calls).map fun (answers, poly) => (answers, poly.columns) := by
  unfold run Columns.run
  induction calls generalizing poly with
  | nil => rfl
  | cons c calls ih =>
    rw [Call.run, Call.run, call_columns h]
    cases called : poly.call c with
    | none => rfl
    | some x =>
      simp only [Option.map_some]
      rw [ih (h.called called).2, Option.map_map, Option.map_map]
      rfl

end PhasePolynomial

/-! ## Folding again -/

namespace Term

@[simp] theorem size_axis (t : Term) : t.axis.size = t.support.length := by
  simp [axis, Pauli.size]

theorem isDiagonal_axis (t : Term) : t.axis.isDiagonal = true := by
  unfold axis Pauli.isDiagonal
  rw [List.all_map, List.all_eq_true]
  intro b _
  cases b <;> rfl

theorem zBits_axis (t : Term) : t.axis.zBits = t.support := by
  unfold axis Pauli.zBits
  rw [List.map_map]
  conv_rhs => rw [← t.support.map_id]
  apply List.map_congr_left
  intro b _
  cases b <;> rfl

end Term

namespace Folded

/-- A term that is written as a rotation and absorbed is the last term. -/
theorem absorbed_toRotation (f : Folded) (t : Term) :
    f.absorbed (.rotation t.toRotation) =
      ⟨⟨f.poly.width, f.poly.terms ++ [t]⟩, f.clifford⟩ := by
  simp only [absorbed, Term.toRotation, Term.zBits_axis]

theorem foldl_toRotation (f : Folded) (terms : List Term) :
    (terms.map fun t => StreamOp.rotation t.toRotation).foldl absorbed f =
      ⟨⟨f.poly.width, f.poly.terms ++ terms⟩, f.clifford⟩ := by
  induction terms generalizing f with
  | nil => simp
  | cons t terms ih => simp [ih, absorbed_toRotation]

/-- A polynomial whose terms span the register is what its own stream is folded into. -/
theorem ofStream_stream {poly : PhasePolynomial} (spans : poly.Spans) :
    ofStream poly.stream poly.width = .ok ⟨poly, []⟩ := by
  apply ofStream_eq_ok_iff.mpr
  constructor
  · intro op hop
    obtain ⟨t, ht, rfl⟩ := List.mem_map.mp hop
    exact ⟨t.size_axis.trans (spans t ht), t.isDiagonal_axis⟩
  · rw [PhasePolynomial.stream, foldl_toRotation]
    rfl

end Folded

/-- **Folding again changes nothing.** There is an empty polynomial to start with, unless its
table cannot be laid out. Terms are pushed, and CX gates on the register are passed to the front of
the terms so far, in any order. All these calls are answered. In columns, the table has as many
rows as there are flips and signs, and they make up the terms. A further term is refused and
changes nothing if its support does not span the register, and is the last term otherwise. The
stream of the polynomial is folded into this polynomial and no gates. -/
theorem refolding_is_identity (width : Nat) :
    let start := PhasePolynomial.empty width
    PhasePolynomial.empty? width = (if fitsLetters width then some start else none) ∧
    ∀ calls : List PhasePolynomial.Call, (∀ c t, .passCX c t ∈ calls → c < width ∧ t < width) →
      ∃ answers poly columns, start.run calls = some (answers, poly) ∧ poly.width = width ∧
        (PhasePolynomial.Columns.empty width).run calls = some (answers, columns) ∧
        columns.table.length = columns.flips.length ∧
        columns.table.length = columns.signs.length ∧ columns = poly.columns ∧
        (∀ t : Term, t.support.length ≠ width →
          start.run (calls ++ [.push t]) = some (answers ++ [.refused .shapeMismatch], poly)) ∧
        (∀ t : Term, t.support.length = width →
          start.run (calls ++ [.push t]) =
            some (answers ++ [.done], ⟨width, poly.terms ++ [t]⟩)) ∧
        Folded.ofStream poly.stream poly.width = .ok ⟨poly, []⟩ ∧
        Folded.ofStream? poly.stream poly.width =
          (if fitsLetters width then some (.ok ⟨poly, []⟩) else none) := by
  intro start
  refine ⟨rfl, ?_⟩
  intro calls inside
  have empty : start.Spans := PhasePolynomial.spans_empty width
  obtain ⟨answers, poly, ran, wide, spans⟩ := empty.ran inside
  obtain rfl : poly.width = width := wide
  have laidOut := PhasePolynomial.run_columns empty calls
  rw [ran, Option.map_some] at laidOut
  have next : ∀ c, start.run (calls ++ [c]) =
      (poly.call c).map fun (answer, poly) => (answers ++ [answer], poly) := by
    intro c
    rw [PhasePolynomial.run, PhasePolynomial.Call.run_append ran, PhasePolynomial.Call.run]
    cases poly.call c <;> rfl
  have again := Folded.ofStream_stream spans
  refine ⟨answers, poly, poly.columns, ran, rfl, laidOut, ?_, ?_, rfl, ?_, ?_, again, ?_⟩
  · simp [PhasePolynomial.columns]
  · simp [PhasePolynomial.columns]
  · intro t other
    rw [next, PhasePolynomial.call_push_of_ne other]
    rfl
  · intro t same
    rw [next, PhasePolynomial.call_push_of_eq same]
    rfl
  · rw [Folded.ofStream?, again]

/-- The second term is too short and is refused between two CX gates, each of which changes
another one of the terms that are there. -/
theorem refolding_after_refused_term :
    let calls : List PhasePolynomial.Call := [.push ⟨[true, true], [0], false⟩, .passCX 0 1,
      .push ⟨[true], [1], true⟩, .push ⟨[true, false], [0, 2], true⟩, .passCX 1 0]
    let poly : PhasePolynomial :=
      ⟨2, [⟨[false, true], [0], false⟩, ⟨[true, true], [0, 2], true⟩]⟩
    let answers : List PhasePolynomial.Answer := [.done, .done, .refused .shapeMismatch, .done, .done]
    (PhasePolynomial.empty 2).run calls = some (answers, poly) ∧
    (PhasePolynomial.Columns.empty 2).run calls = some (answers, poly.columns) ∧
    (PhasePolynomial.empty 2).run (calls ++ [.push ⟨[], [], false⟩]) =
      some (answers ++ [.refused .shapeMismatch], poly) ∧
    Folded.ofStream? poly.stream 2 = some (.ok ⟨poly, []⟩) := by
  intro calls poly answers
  have inside : ∀ c t, .passCX c t ∈ calls → c < 2 ∧ t < 2 := by
    intro c t member
    simp [calls] at member
    omega
  have ran : (PhasePolynomial.empty 2).run calls = some (answers, poly) := by decide
  obtain ⟨answers', poly', columns, ran', width, laidOut, -, -, same, refused, -, -, again⟩ :=
    (refolding_is_identity 2).2 calls inside
  rw [ran] at ran'
  cases ran'
  subst same
  exact ⟨ran, laidOut, refused ⟨[], [], false⟩ (by decide), again⟩

end HadamardFree
