import HadamardFree.Proofs.Extension

/-!
# Flips in a table

The circuit of a network can be written down in one pass, with a table that has a row for each
step. A new gadget enters its number in the rows of the steps that it flips, and the rotation of a
step takes what its row holds by then. Nothing is known to be there in this pass: each number that
is looked up may be missing, and what is laid out may have no room.

* `Draft.put`: what is written down for one thing that is emitted, with the rows of the table;
* `Draft.passGate`, `Draft.passPiece`, `Draft.passSteps`: the pass;
* `Byproduct.ofGate?_of_gadget`: the byproduct of a new gadget finds its slot and its step;
* `Draft.passPiece_eq`, `Draft.passSteps_eq`: the pass puts down what is emitted, or is refused in
  the same way;
* `Draft.Holds`, `Emission.stream_foldl_put`: the rows hold the gadgets so far, so that what a
  rotation takes from its row are all gadgets that flip it;
* `Network.draft_of_unfolded`, `Network.draft_of_circuit`: the whole pass, and the circuit that its
  stream is folded into.
-/

namespace HadamardFree

/-- What has been written down of a circuit. Row `k` of the table has the numbers of the gadgets so
far that flip the rotation of step `k`, until that rotation takes them. -/
structure Draft where
  table : List (List Nat)
  beginning : List Gate
  stream : List StreamOp
  ending : List Gate
  corrections : List Pauli
  deriving DecidableEq, Repr

namespace Draft

/-- Nothing yet, and a table for `size` steps. -/
def blank (size : Nat) : Draft :=
  ⟨List.replicate size [], [], [], [], []⟩

/-- Appends a number to the rows of the given steps. -/
def enter (id : Nat) (flips : List Nat) (table : List (List Nat)) : List (List Nat) :=
  flips.foldl (fun table k => table.modify k (· ++ [id])) table

def put (d : Draft) : Emitted → Draft
  | .gate g => { d with stream := d.stream ++ [.gate g] }
  | .gadget g =>
    { table := enter g.id g.flips d.table
      beginning := d.beginning ++ [.h g.fresh]
      stream := d.stream ++ [.gate (.cz g.retired g.fresh)]
      ending := d.ending ++ [.h g.retired, .meas g.retired g.id]
      corrections := d.corrections ++ [g.correction] }
  | .rotation step axis sign =>
    { d with
      table := d.table.set step []
      stream := d.stream ++ [.rotation ⟨axis, d.table.getD step [], sign⟩] }

/-- Writes down the gate at `offset` in the piece of step `step`. There is no answer if a qubit, a
slot or a row of the table is looked up in vain, or if the byproduct of a gadget has none. -/
def passGate (network : Network) (step offset : Nat) (g : Gate) (r : Register) (d : Draft) :
    Option (Except GadgetError (Register × Draft)) :=
  match g with
  | .h q =>
    match r.moveQubit q with
    | .error .noSuchQubit => none
    | .error .full => some (.error (.registerFull r.width))
    | .ok (m, r) =>
      let (id, r) := r.newOutcome
      match Byproduct.ofGate? network step offset m.fresh r with
      | none => none
      | some (.error e) => some (.error e)
      | some (.ok b) =>
        if ∀ k ∈ b.flips, k < d.table.length then
          some (.ok (r, d.put (.gadget ⟨id, q, step, m.retired, m.fresh, b.flips, b.correction⟩)))
        else none
  | g => if g.fits r.size then some (.ok (r, d.put (.gate (g.rename r.placement.slot)))) else none

/-- Goes through a piece, or what is left of it from `offset` on. -/
def passPiece (network : Network) (step : Nat) :
    Nat → List Gate → Register → Draft → Option (Except GadgetError (Register × Draft))
  | _, [], r, d => some (.ok (r, d))
  | offset, g :: tail, r, d =>
    match passGate network step offset g r d with
    | none => none
    | some (.error e) => some (.error e)
    | some (.ok (r, d)) => passPiece network step (offset + 1) tail r d

end Draft

/-- As `placeAxis`, but there is no answer if an operator on the whole register cannot be laid
out. -/
def Register.placeAxis? (r : Register) (step : Nat) (axis : Pauli) :
    Option (Except GadgetError Pauli) :=
  match r.lift axis with
  | .ok axis => some (.ok axis)
  | .error .tooWide => none
  | .error .wrongSize | .error .slotOutside =>
    some (.error (.malformedRotation step r.size axis.size))

/-- Goes through whole steps, the first of which has number `step`. -/
def Draft.passSteps (network : Network) :
    Nat → List Step → Register → Draft → Option (Except GadgetError (Register × Draft))
  | _, [], r, d => some (.ok (r, d))
  | step, s :: later, r, d =>
    match passPiece network step 0 s.piece r d with
    | none => none
    | some (.error e) => some (.error e)
    | some (.ok (r, d)) =>
      match r.placeAxis? step s.axis with
      | none => none
      | some (.error e) => some (.error e)
      | some (.ok axis) =>
        if step < d.table.length then
          passSteps network (step + 1) later r (d.put (.rotation step axis s.sign))
        else none

namespace Network

/-- The whole pass, behind the check of the network. -/
def draft? (network : Network) : Option (Except GadgetError (Register × Draft)) :=
  match network.width? with
  | none => some (.error .emptyNetwork)
  | some n =>
    match network.fault? n with
    | some e => some (.error e)
    | none =>
      match Register.start? n (n + network.hCount) with
      | none => none
      | some r => Draft.passSteps network 0 network.steps r (.blank network.size)

/-- The whole pass, and then all CX gates folded into the rotations. -/
def draftFolded? (network : Network) : Option (Except GadgetError (Register × Draft × Folded)) :=
  match network.draft? with
  | none => none
  | some (.error e) => some (.error e)
  | some (.ok (r, d)) =>
    match Folded.ofStream? d.stream r.width with
    | none => none
    | some (.error e) => some (.error (.folding e))
    | some (.ok f) => some (.ok (r, d, f))

end Network

/-! ## Rows of the table -/

namespace Draft

@[simp] theorem length_enter (id : Nat) (flips : List Nat) (table : List (List Nat)) :
    (enter id flips table).length = table.length := by
  induction flips generalizing table with
  | nil => rfl
  | cons k flips ih => simpa [enter] using ih (table.modify k (· ++ [id]))

/-- A row has one number more if its step is among the flips. -/
theorem getElem?_enter {flips : List Nat} (distinct : flips.Nodup) (id : Nat)
    (table : List (List Nat)) (k : Nat) :
    (enter id flips table)[k]? =
      (table[k]?).map fun row => if k ∈ flips then row ++ [id] else row := by
  induction flips generalizing table with
  | nil => simp [enter]
  | cons j flips ih =>
    obtain ⟨fresh, distinct⟩ := List.nodup_cons.mp distinct
    have rest := ih distinct (table.modify j (· ++ [id]))
    rw [enter] at rest ⊢
    rw [List.foldl_cons, rest, List.getElem?_modify]
    by_cases same : j = k
    · subst same
      simp [fresh, Function.comp_def]
    · simp [same, Ne.symm same]

@[simp] theorem length_table_put (d : Draft) (e : Emitted) :
    (d.put e).table.length = d.table.length := by
  cases e <;> simp [put]

@[simp] theorem length_table_foldl_put (d : Draft) (es : List Emitted) :
    (es.foldl put d).table.length = d.table.length := by
  induction es generalizing d with
  | nil => rfl
  | cons e es ih => rw [List.foldl_cons, ih, length_table_put]

end Draft

theorem Gadget.flipping_concat (gadgets : List Gadget) (g : Gadget) (k : Nat) :
    flipping (gadgets ++ [g]) k =
      if k ∈ g.flips then flipping gadgets k ++ [g.id] else flipping gadgets k := by
  by_cases flipped : k ∈ g.flips <;> simp [flipping, List.filter_append, flipped]

/-! ## What is emitted -/

/-- The first of what is left of a list, and what is left behind it. -/
theorem getElem?_of_drop_eq_cons {α : Type} {l rest : List α} {i : Nat} {a : α}
    (h : l.drop i = a :: rest) : l[i]? = some a ∧ l.drop (i + 1) = rest := by
  rw [← List.head?_drop, ← List.tail_drop, h]
  exact ⟨rfl, rfl⟩

theorem bind_eq_ok_iff {ε α β : Type} {x : Except ε α} {f : α → Except ε β} {b : β} :
    x >>= f = .ok b ↔ ∃ a, x = .ok a ∧ f a = .ok b := by
  cases x <;> simp [bind, Except.bind]

/-- A byproduct flips steps in order, each of them once, and only steps that it comes to. -/
theorem Front.flips_of_passSteps {step : Nat} {f : Front} {later : List Step} {b : Byproduct}
    (passed : f.passSteps step later = .ok b) :
    b.flips.Sublist (List.range' step later.length) := by
  induction later generalizing step f b with
  | nil =>
    cases passed
    exact .slnil
  | cons s later ih =>
    simp only [passSteps, bind_eq_ok_iff] at passed
    obtain ⟨f', -, axis, -, b', walked, done⟩ := passed
    obtain rfl := Except.ok.inj done
    rw [List.length_cons, List.range'_succ]
    split
    · exact (ih walked).cons _
    · exact (ih walked).cons_cons _

theorem Byproduct.flips_of_follow {start : Nat} {tail : List Gate} {later : List Step}
    {target : Nat} {r : Register} {b : Byproduct}
    (followed : follow start tail later target r = .ok b) :
    b.flips.Sublist (List.range' start (later.length + 1)) := by
  simp only [follow, bind_eq_ok_iff] at followed
  obtain ⟨f, -, b', walked, done⟩ := followed
  obtain rfl := Except.ok.inj done
  rw [List.range'_succ]
  exact (Front.flips_of_passSteps walked).cons_cons _

namespace Emitted

variable {step : Nat} {later : List Step} {r r' : Register} {es : List Emitted}

/-- What is emitted for the first gate of a piece, and the register behind it. -/
theorem ofPiece_cons_eq_ok {g : Gate} {tail : List Gate} (fits : g.fits r.size = true)
    (emits : ofPiece step later (g :: tail) r = .ok (es, r')) :
    (g.isH = false ∧ ∃ rest, ofPiece step later tail r = .ok (rest, r') ∧
      es = gate (g.rename r.placement.slot) :: rest) ∨
    ∃ q b rest, g = .h q ∧ q < r.size ∧ r.allocated < r.width ∧
      Byproduct.follow step tail later r.allocated (r.moved q).newOutcome.2 = .ok b ∧
      ofPiece step later tail (r.moved q).newOutcome.2 = .ok (rest, r') ∧
      es = gadget ⟨r.measurements, q, step, r.placement.slot q, r.allocated, b.flips,
        b.correction⟩ :: rest := by
  rw [ofPiece, bind_eq_ok_iff] at emits
  obtain ⟨⟨placed, r₁⟩, place, emits⟩ := emits
  cases turn : g.isH with
  | false =>
    rw [Register.placeGate_of_not_isH fits turn] at place
    cases place
    obtain ⟨⟨rest, r₂⟩, emitted, done⟩ := bind_eq_ok_iff.mp emits
    cases Except.ok.inj done
    exact .inl ⟨rfl, rest, emitted, rfl⟩
  | true =>
    obtain ⟨q, rfl⟩ := Gate.eq_h_of_isH turn
    have hq : q < r.size := by simpa [Gate.fits, Gate.qubits] using fits
    by_cases free : r.allocated < r.width
    · rw [Register.placeGate_h hq free] at place
      cases place
      obtain ⟨b, followed, emits⟩ := bind_eq_ok_iff.mp emits
      obtain ⟨⟨rest, r₂⟩, emitted, done⟩ := bind_eq_ok_iff.mp emits
      cases Except.ok.inj done
      exact .inr ⟨q, b, rest, rfl, hq, free, followed, emitted, rfl⟩
    · simp [Register.placeGate, Register.place, fits, Register.moveQubit, free, Except.map] at place

theorem ofSteps_cons_eq_ok {s : Step} (emits : ofSteps step (s :: later) r = .ok (es, r')) :
    ∃ front r₁ axis back, ofPiece step later s.piece r = .ok (front, r₁) ∧
      r₁.placeAxis step s.axis = .ok axis ∧ ofSteps (step + 1) later r₁ = .ok (back, r') ∧
      es = front ++ rotation step axis s.sign :: back := by
  simp only [ofSteps, bind_eq_ok_iff] at emits
  obtain ⟨⟨front, r₁⟩, piece, axis, placed, ⟨back, r₂⟩, rest, done⟩ := emits
  cases Except.ok.inj done
  exact ⟨front, r₁, axis, back, piece, placed, rest, rfl⟩

/-- A piece keeps the size and the width of the register. Its gadgets flip steps in order, each of
them once, and none in front of their own. -/
theorem kept_of_ofPiece {tail : List Gate} (fits : ∀ g ∈ tail, g.fits r.size = true)
    (emits : ofPiece step later tail r = .ok (es, r')) :
    r'.size = r.size ∧ r'.width = r.width ∧
      ∀ g ∈ gadgets es, g.flips.Sublist (List.range' step (later.length + 1)) := by
  induction tail generalizing r es with
  | nil =>
    cases emits
    exact ⟨rfl, rfl, fun g hg => by cases hg⟩
  | cons g tail ih =>
    rw [List.forall_mem_cons] at fits
    obtain ⟨-, rest, emitted, rfl⟩ | ⟨q, b, rest, rfl, hq, free, followed, emitted, rfl⟩ :=
      ofPiece_cons_eq_ok fits.1 emits
    · obtain ⟨size, width, flips⟩ := ih fits.2 emitted
      exact ⟨size, width, flips⟩
    · obtain ⟨size, width, flips⟩ := ih (by simpa using fits.2) emitted
      exact ⟨size.trans (by simp), width,
        List.forall_mem_cons.mpr ⟨Byproduct.flips_of_follow followed, flips⟩⟩

theorem flips_of_ofSteps {steps : List Step}
    (fits : ∀ s ∈ steps, ∀ g ∈ s.piece, g.fits r.size = true)
    (emits : ofSteps step steps r = .ok (es, r')) :
    ∀ g ∈ gadgets es, g.flips.Sublist (List.range' step steps.length) := by
  induction steps generalizing step r es with
  | nil =>
    cases emits
    exact fun g hg => by cases hg
  | cons s later ih =>
    rw [List.forall_mem_cons] at fits
    obtain ⟨front, r₁, axis, back, piece, -, rest, rfl⟩ := ofSteps_cons_eq_ok emits
    obtain ⟨size, -, own⟩ := kept_of_ofPiece fits.1 piece
    have listed : gadgets (front ++ rotation step axis s.sign :: back) =
        gadgets front ++ gadgets back := List.filterMap_append
    rw [listed, List.forall_mem_append]
    refine ⟨own, fun g hg => ?_⟩
    rw [List.length_cons, List.range'_succ]
    exact (ih (size ▸ fits.2) rest g hg).cons _

end Emitted

/-! ## The pass -/

/-- The fresh slot of a new gadget is one of the register, and its step is one of the network, so
that its byproduct is followed. -/
theorem Byproduct.ofGate?_of_gadget {network : Network} {step offset q : Nat} {s : Step}
    {tail : List Gate} {r : Register} (found : network.get? step = some s)
    (split : s.piece.drop offset = .h q :: tail) (short : s.piece.length < wordLimit)
    (free : r.allocated < r.width) (narrow : r.width < byteLimit) :
    ofGate? network step offset r.allocated (r.moved q).newOutcome.2 =
      some (follow step tail (network.steps.drop (step + 1)) r.allocated
        (r.moved q).newOutcome.2) := by
  obtain ⟨here, rfl⟩ := getElem?_of_drop_eq_cons split
  have inside : offset < s.piece.length := (List.getElem?_eq_some_iff.mp here).1
  exact ofGate?_eq_follow free found narrow (Nat.lt_of_le_of_lt inside short)

theorem Register.placeAxis?_eq {r : Register} (narrow : r.width < byteLimit) (step : Nat)
    (axis : Pauli) : r.placeAxis? step axis = some (r.placeAxis step axis) := by
  have room : fitsLetters r.width = true := decide_eq_true narrow
  by_cases size : axis.size = r.placement.size
  · cases lifted : r.placement.lift? axis r.width <;>
      simp [placeAxis?, placeAxis, lift, lift?, Placement.lift, size, room, lifted]
  · have none : r.placement.lift? axis r.width = none := if_neg fun fits => size fits.1
    simp [placeAxis?, placeAxis, lift, lift?, Placement.lift, size, none]

namespace Draft

variable {network : Network} {step offset : Nat} {r r' : Register} {d : Draft} {s : Step}
  {es : List Emitted}

theorem passGate_of_not_isH {g : Gate} (fits : g.fits r.size = true) (other : g.isH = false) :
    passGate network step offset g r d =
      some (.ok (r, d.put (.gate (g.rename r.placement.slot)))) := by
  cases g with
  | h q => cases other
  | s | cx | cz | meas => exact if_pos fits

/-- A new gadget is entered in the table. All steps that it flips have a row. -/
theorem passGate_h {q : Nat} {tail : List Gate} {b : Byproduct}
    (found : network.get? step = some s) (split : s.piece.drop offset = .h q :: tail)
    (short : s.piece.length < wordLimit) (hq : q < r.size) (free : r.allocated < r.width)
    (narrow : r.width < byteLimit) (rows : d.table.length = network.size)
    (followed : Byproduct.follow step tail (network.steps.drop (step + 1)) r.allocated
      (r.moved q).newOutcome.2 = .ok b) :
    passGate network step offset (.h q) r d =
      some (.ok ((r.moved q).newOutcome.2, d.put (.gadget ⟨r.measurements, q, step,
        r.placement.slot q, r.allocated, b.flips, b.correction⟩))) := by
  have walked := Byproduct.ofGate?_of_gadget found split short free narrow
  rw [followed] at walked
  have known : step < network.steps.length := (List.getElem?_eq_some_iff.mp found).1
  have entered : ∀ k ∈ b.flips, k < d.table.length := by
    intro k hk
    have listed := (Byproduct.flips_of_follow followed).subset hk
    rw [List.mem_range'_1, List.length_drop] at listed
    rw [rows, Network.size]
    omega
  rw [passGate, Register.moveQubit_eq hq free]
  simp only [walked]
  exact if_pos entered

/-- A piece is written down as it is emitted. -/
theorem passPiece_eq {tail : List Gate} (found : network.get? step = some s)
    (short : s.piece.length < wordLimit) (split : s.piece.drop offset = tail)
    (fits : ∀ g ∈ tail, g.fits r.size = true) (narrow : r.width < byteLimit)
    (rows : d.table.length = network.size)
    (emits : Emitted.ofPiece step (network.steps.drop (step + 1)) tail r = .ok (es, r')) :
    passPiece network step offset tail r d = some (.ok (r', es.foldl put d)) := by
  induction tail generalizing offset r d es with
  | nil =>
    cases emits
    rfl
  | cons g tail ih =>
    rw [List.forall_mem_cons] at fits
    obtain ⟨-, behind⟩ := getElem?_of_drop_eq_cons split
    obtain ⟨other, rest, emitted, rfl⟩ | ⟨q, b, rest, rfl, hq, free, followed, emitted, rfl⟩ :=
      Emitted.ofPiece_cons_eq_ok fits.1 emits
    · rw [passPiece, passGate_of_not_isH fits.1 other]
      exact ih behind fits.2 narrow ((length_table_put ..).trans rows) emitted
    · rw [passPiece, passGate_h found split short hq free narrow rows followed]
      exact ih behind (by simpa using fits.2) narrow ((length_table_put ..).trans rows) emitted

theorem passSteps_eq {steps : List Step} (split : network.steps.drop step = steps)
    (fits : ∀ s ∈ steps, ∀ g ∈ s.piece, g.fits r.size = true)
    (short : ∀ s ∈ steps, s.piece.length < wordLimit) (narrow : r.width < byteLimit)
    (rows : d.table.length = network.size)
    (emits : Emitted.ofSteps step steps r = .ok (es, r')) :
    passSteps network step steps r d = some (.ok (r', es.foldl put d)) := by
  induction steps generalizing step r d es with
  | nil =>
    cases emits
    rfl
  | cons s later ih =>
    rw [List.forall_mem_cons] at fits short
    obtain ⟨found, behind⟩ := getElem?_of_drop_eq_cons split
    have known : step < network.size := (List.getElem?_eq_some_iff.mp found).1
    obtain ⟨front, r₁, axis, back, piece, placed, rest, rfl⟩ := Emitted.ofSteps_cons_eq_ok emits
    obtain ⟨size, width, -⟩ := Emitted.kept_of_ofPiece fits.1 piece
    rw [← behind] at piece
    have narrow₁ : r₁.width < byteLimit := width ▸ narrow
    have rows₁ : (front.foldl put d).table.length = network.size :=
      (length_table_foldl_put ..).trans rows
    rw [passSteps, passPiece_eq found short.1 List.drop_zero fits.1 narrow rows piece]
    simp only [Register.placeAxis?_eq narrow₁, placed, rows₁, known, if_true]
    rw [ih behind (size ▸ fits.2) short.2 narrow₁ ((length_table_put ..).trans rows₁) rest,
      List.foldl_append, List.foldl_cons]

/-! ## What is written down -/

/-- Apart from the stream, what is written down are parts of the gadgets, in order. -/
theorem foldl_put_eq (d : Draft) (es : List Emitted) :
    let gadgets := Emitted.gadgets es
    (es.foldl put d).beginning = d.beginning ++ Gadget.preparations gadgets ∧
      (es.foldl put d).ending = d.ending ++ Gadget.readout gadgets ∧
      (es.foldl put d).corrections = d.corrections ++ Gadget.corrections gadgets := by
  induction es generalizing d with
  | nil => simp [Emitted.gadgets, Gadget.preparations, Gadget.readout, Gadget.corrections]
  | cons e es ih =>
    obtain ⟨beginning, ending, corrections⟩ := ih (d.put e)
    rw [List.foldl_cons, beginning, ending, corrections]
    cases e with
    | gate | rotation => exact ⟨rfl, rfl, rfl⟩
    | gadget g =>
      simp [put, Emitted.gadgets, Emitted.gadget?, Gadget.preparations, Gadget.readout,
        Gadget.corrections]

/-- From row `first` on, the table has the numbers of all gadgets so far that flip the step. -/
def Holds (first : Nat) (gadgets : List Gadget) (d : Draft) : Prop :=
  ∀ k, first ≤ k → k < d.table.length → d.table[k]? = some (Gadget.flipping gadgets k)

theorem holds_blank (size : Nat) : (blank size).Holds 0 [] := by
  intro k _ inside
  have known : k < size := by simpa [blank] using inside
  simp [blank, Gadget.flipping, known]

namespace Holds

variable {first : Nat} {gadgets : List Gadget}

theorem put_gadget (h : d.Holds first gadgets) {g : Gadget} (distinct : g.flips.Nodup) :
    (d.put (.gadget g)).Holds first (gadgets ++ [g]) := by
  intro k hk inside
  rw [length_table_put] at inside
  have entered := getElem?_enter distinct g.id d.table k
  rw [h k hk inside] at entered
  rw [Gadget.flipping_concat]
  exact entered

/-- A rotation empties its own row, which nobody looks at again. -/
theorem put_rotation (h : d.Holds first gadgets) (axis : Pauli) (sign : Bool) :
    (d.put (.rotation first axis sign)).Holds (first + 1) gadgets := by
  intro k hk inside
  rw [length_table_put] at inside
  have other : (d.table.set first [])[k]? = d.table[k]? := List.getElem?_set_ne (by omega)
  exact other.trans (h k (by omega) inside)

end Holds

end Draft

/-- If the rows hold the gadgets so far, then each rotation takes from its row all gadgets that flip
it: those that come later do not. -/
theorem Emission.stream_foldl_put {n first : Nat} {ops : List Op} {r r' : Register}
    {es : List Emitted} {d : Draft} {gadgets : List Gadget} (h : Emission n ops r es r')
    (numbered : Op.Numbered first ops)
    (known : ∀ k ∈ ops.filterMap Op.rotation?, k < d.table.length)
    (distinct : ∀ g ∈ Emitted.gadgets es, g.flips.Nodup) (rows : d.Holds first gadgets) :
    (es.foldl Draft.put d).stream =
      d.stream ++ es.map (Emitted.toOp (gadgets ++ Emitted.gadgets es)) := by
  induction h generalizing first d gadgets with
  | nil r => exact (List.append_nil _).symm
  | @gate step g ops r r' es carries other rest ih =>
    have written : (es.foldl Draft.put (d.put (.gate (g.rename r.placement.slot)))).stream = _ :=
      ih numbered.2 known distinct rows
    exact written.trans (List.append_assoc ..)
  | hadamard hq free flipped left rest ih =>
    obtain ⟨own, later⟩ := List.forall_mem_cons.mp distinct
    have written := ih numbered.2 (by rw [Draft.length_table_put]; exact known) later
      (rows.put_gadget own)
    rw [List.append_assoc gadgets] at written
    exact written.trans (List.append_assoc ..)
  | @rotation step axis lifted sign ops r r' es lifts rest ih =>
    obtain ⟨rfl, later⟩ := numbered
    rw [Op.rotations_cons, List.forall_mem_cons] at known
    have taken : d.table.getD step [] = Gadget.flipping gadgets step := by
      rw [List.getD_eq_getElem?_getD, rows step (Nat.le_refl _) known.1, Option.getD_some]
    have all : Gadget.flipping (gadgets ++ Emitted.gadgets es) step =
        Gadget.flipping gadgets step :=
      Gadget.flipping_append_of_le (rest.le_of_flips later) (Nat.lt_succ_self step) gadgets
    have own : (d.put (.rotation step lifted sign)).stream = d.stream ++
        [Emitted.toOp (gadgets ++ Emitted.gadgets es) (.rotation step lifted sign)] := by
      rw [Draft.put, Emitted.toOp, taken, all]
    have written := ih later (by rw [Draft.length_table_put]; exact known.2) distinct
      (rows.put_rotation lifted sign)
    rw [own] at written
    exact written.trans (List.append_assoc ..)

/-! ## Networks -/

/-- The draft and the register at its end have all parts of the circuit. -/
structure Draft.Renders (d : Draft) (r : Register) (u : Unfolded) : Prop where
  beginning : d.beginning = u.beginning
  stream : d.stream = u.stream
  ending : d.ending = u.ending
  corrections : d.corrections = u.corrections
  layout : r.placement = u.layout
  width : r.width = u.width

namespace Network

/-- What is laid out for the network has room, and the positions in its pieces are words. -/
structure Fits (network : Network) : Prop where
  qubits : ∀ n, network.width? = some n → 8 * n < byteLimit
  slots : ∀ width, network.slotsNeeded? = some width → width < byteLimit
  pieces : ∀ s ∈ network.steps, s.piece.length < wordLimit

variable {network : Network} {n : Nat}

theorem Fits.narrow (fits : network.Fits) (width : network.width? = some n) :
    n + network.hCount < byteLimit := by
  apply fits.slots
  rw [slotsNeeded?, width]
  rfl

/-- The pass over a network without faults, from a blank draft. -/
theorem renders_of_emission {u : Unfolded} {r : Register}
    (emission : Emission n (Op.ofSteps 0 network.steps) (.start n u.width) u.emitted r)
    (room : n ≤ u.width) (layout : u.layout = r.placement)
    (distinct : ∀ g ∈ u.gadgets, g.flips.Nodup) :
    (u.emitted.foldl Draft.put (.blank network.size)).Renders r u := by
  obtain ⟨beginning, ending, corrections⟩ :=
    Draft.foldl_put_eq (.blank network.size) u.emitted
  obtain ⟨-, -, width⟩ := emission.sound (Register.start_sound room) (Register.size_start ..)
  have known : ∀ k ∈ (Op.ofSteps 0 network.steps).filterMap Op.rotation?,
      k < (Draft.blank network.size).table.length := by
    intro k hk
    rw [Op.rotations_ofSteps, List.mem_range'_1, Nat.zero_add] at hk
    simpa [Draft.blank, size] using hk.2
  exact ⟨beginning, emission.stream_foldl_put (Op.numbered_ofSteps 0 network.steps) known distinct
    (Draft.holds_blank network.size), ending, corrections, layout.symm, width⟩

/-- **The circuit is written down in one pass.** Where all that is laid out has room, the pass with
a table of flips has an answer for every network: it is refused as the network is, and else what is
written down are the parts of its circuit, each rotation with the numbers from its row. -/
theorem draft_of_unfolded (fits : network.Fits) :
    (∀ e, network.unfolded = .error e → network.draft? = some (.error e)) ∧
    ∀ u, network.unfolded = .ok u → ∃ r d, d.Renders r u ∧ network.draft? = some (.ok (r, d)) := by
  cases width : network.width? with
  | none => simp [unfolded, draft?, width]
  | some n =>
    cases fault : network.fault? n with
    | some e => simp [unfolded, draft?, width, fault]
    | none =>
      have carries := fault?_eq_none_iff.mp fault
      have start : Register.start? n (n + network.hCount) = some (.start n (n + network.hCount)) :=
        if_pos ⟨Nat.le_add_right .., decide_eq_true (fits.qubits n width)⟩
      obtain ⟨es, r, emits, emission⟩ := ofSteps_emission 0
        (Register.start_sound (Nat.le_add_right n network.hCount)) (Register.size_start ..) carries
        (Nat.le_refl _)
      have gates : ∀ s ∈ network.steps, ∀ g ∈ s.piece,
          g.fits (Register.start n (n + network.hCount)).size = true := by
        rw [Register.size_start]
        exact fun s hs g hg => ((carries s hs).piece g hg).2
      have distinct : ∀ g ∈ Emitted.gadgets es, g.flips.Nodup := by
        intro g hg
        exact (Emitted.flips_of_ofSteps gates emits g hg).nodup List.nodup_range'
      have drafted : network.draft? =
          some (.ok (r, es.foldl Draft.put (.blank network.size))) := by
        simp only [draft?, width, fault, start]
        exact Draft.passSteps_eq List.drop_zero gates fits.pieces (fits.narrow width)
          List.length_replicate emits
      have unfolds : network.unfolded = .ok ⟨n + network.hCount, es, r.placement⟩ := by
        simp only [unfolded, width, fault, emits, bind, Except.bind, pure, Except.pure]
      refine ⟨fun e refused => ?_, fun u built => ⟨r, _, ?_, drafted⟩⟩
      · rw [unfolds] at refused
        cases refused
      · cases unfolds.symm.trans built
        exact renders_of_emission (u := ⟨n + network.hCount, es, r.placement⟩) emission
          (Nat.le_add_right ..) rfl distinct

/-- The first gadget is entered in both rows, and the first rotation has taken its number by the
time that the second gadget comes. -/
example : draft? ⟨[⟨[.h 0], ⟨[.Z, .I]⟩, false⟩, ⟨[.cx 0 1, .h 0], ⟨[.Z, .Z]⟩, true⟩]⟩ =
    some (.ok (⟨⟨[3, 1]⟩, 4, 4, 2⟩, {
      table := [[], []]
      beginning := [.h 2, .h 3]
      stream := [.gate (.cz 0 2), .rotation ⟨⟨[.I, .I, .Z, .I]⟩, [0], false⟩, .gate (.cx 2 1),
        .gate (.cz 2 3), .rotation ⟨⟨[.I, .Z, .I, .Z]⟩, [0, 1], true⟩]
      ending := [.h 0, .meas 0 0, .h 2, .meas 2 1]
      corrections := [⟨[.I, .X, .I, .Z]⟩, ⟨[.I, .I, .I, .X]⟩] })) := by
  decide

/-- The same with all CX gates folded into the rotations. -/
theorem draft_of_circuit (fits : network.Fits) :
    (∀ e, network.circuit = .error e → network.draftFolded? = some (.error e)) ∧
    ∀ c, network.circuit = .ok c → ∃ r d, d.Renders r c.toUnfolded ∧
      network.draftFolded? = some (.ok (r, d, ⟨c.poly, c.clifford⟩)) := by
  obtain ⟨refusals, parts⟩ := draft_of_unfolded fits
  cases unfolds : network.unfolded with
  | error e =>
    have drafted : network.draftFolded? = some (.error e) := by
      simp only [draftFolded?, refusals e unfolds]
    simp [circuit, unfolds, drafted, bind, Except.bind]
  | ok u =>
    obtain ⟨r, d, renders, drafted⟩ := parts u unfolds
    obtain ⟨n, width⟩ := exists_width unfolds
    obtain ⟨-, wide, -⟩ := network.unfolded_emission unfolds width
    have narrow : u.width < byteLimit := by
      rw [wide]
      exact fits.narrow width
    have folded : Folded.ofStream? d.stream r.width = some (Folded.ofStream u.stream u.width) := by
      rw [renders.stream, renders.width]
      exact Folded.ofStream?_eq_some u.stream narrow
    simp only [draftFolded?, drafted, folded, circuit, unfolds, bind, Except.bind, Unfolded.fold]
    cases Folded.ofStream u.stream u.width with
    | error e => simp
    | ok f =>
      constructor
      · intro e refused
        cases refused
      · intro c built
        cases built
        exact ⟨r, d, renders, rfl⟩

end Network

end HadamardFree
