import HadamardFree.Network.Tagged
import Mathlib.Data.List.Forall2
import Mathlib.Data.List.Nodup

/-!
# Reading and writing the exchange form

A network in exchange form is read entry by entry, the gates of a step before its axis. Reading
accepts what is well formed, reports the first entry that is not, and undoes writing.

* `TaggedGate.Denotes`, `TaggedStep.Denotes`: what an entry stands for, in all its spellings;
* `TaggedGate.WellFormed`, `TaggedGate.Flaw`: which tagged gates are accepted, and what is wrong
  with the others;
* `Pauli.read_eq_ok_iff`, `Pauli.read_eq_error_iff`: the same for the text of an axis;
* `TaggedEntry.FirstFlaw`: the first entry that is not well formed;
* `Network.ofTagged_eq_ok_iff`, `Network.ofTagged_eq_error_iff`: what a whole network is read as,
  and why it is refused;
* `exchange_form_is_exact`: all of it for one network.
-/

namespace HadamardFree

/-! ## Lists read item by item -/

section
variable {α β ε : Type} {f : α → Except ε β} {good : α → Prop} {bad : Nat → α → Prop} {a : α}
  {as as' : List α} {bs : List β} {e : ε}

theorem mapM_eq_ok_iff : as.mapM f = .ok bs ↔ List.Forall₂ (fun a b => f a = .ok b) as bs := by
  induction as generalizing bs with
  | nil => simp [pure, Except.pure, eq_comm]
  | cons a as ih =>
    rw [List.mapM_cons, List.forall₂_cons_left_iff]
    simp only [← ih]
    cases first : f a with
    | error e => simp [bind, Except.bind]
    | ok b => cases rest : as.mapM f <;> simp [bind, Except.bind, pure, Except.pure, eq_comm]

theorem exists_mapM_iff : (∃ bs, as.mapM f = .ok bs) ↔ ∀ a ∈ as, ∃ b, f a = .ok b := by
  simp only [mapM_eq_ok_iff]
  induction as with
  | nil => simp
  | cons a as ih =>
    rw [List.forall_mem_cons, ← ih]
    simp [List.forall₂_cons_left_iff]

theorem mapM_cons_eq_error_iff : (a :: as).mapM f = .error e ↔
    f a = .error e ∨ (∃ b, f a = .ok b) ∧ as.mapM f = .error e := by
  rw [List.mapM_cons]
  cases first : f a with
  | error e' => simp [bind, Except.bind]
  | ok b => cases rest : as.mapM f <;> simp [bind, Except.bind, pure, Except.pure]

/-- An item is bad at its position, and all items before it are good. -/
def First (good : α → Prop) (bad : Nat → α → Prop) (as : List α) : Prop :=
  ∃ before a after, as = before ++ a :: after ∧ (∀ b ∈ before, good b) ∧ bad before.length a

theorem first_nil : ¬ First good bad [] := by
  rintro ⟨before, a, after, split, -⟩
  simp at split

theorem first_cons : First good bad (a :: as) ↔
    bad 0 a ∨ good a ∧ First good (fun k => bad (k + 1)) as := by
  constructor
  · rintro ⟨before, a', after, split, fine, h⟩
    cases before with
    | nil =>
      cases split
      exact .inl h
    | cons b before =>
      cases split
      rw [List.forall_mem_cons] at fine
      exact .inr ⟨fine.1, before, a', after, rfl, fine.2, h⟩
  · rintro (h | ⟨first, before, a', after, rfl, fine, h⟩)
    · exact ⟨[], a, as, rfl, List.forall_mem_nil _, h⟩
    · exact ⟨a :: before, a', after, rfl, List.forall_mem_cons.mpr ⟨first, fine⟩, h⟩

/-- Where the position does not matter, the first bad item of two lists is that of the first list,
or that of the second if the first has only good ones. -/
theorem first_append {bad : α → Prop} : First good (fun _ => bad) (as ++ as') ↔
    First good (fun _ => bad) as ∨ (∀ a ∈ as, good a) ∧ First good (fun _ => bad) as' := by
  induction as with
  | nil => simp [first_nil]
  | cons a as ih =>
    rw [List.cons_append, first_cons, first_cons, ih, List.forall_mem_cons]
    tauto

end

/-! ## Letters -/

/-- The characters that axes are written in. -/
def Letter.chars : List Char :=
  ['I', 'X', 'Y', 'Z']

theorem Letter.ofChar?_eq_some_iff {c : Char} {a : Letter} : ofChar? c = some a ↔ a.toChar = c := by
  constructor
  · intro h
    unfold ofChar? at h
    split at h <;> cases h <;> rfl
  · rintro rfl
    exact ofChar?_toChar a

theorem Letter.ofChar?_eq_none_iff {c : Char} : ofChar? c = none ↔ c ∉ chars := by
  constructor
  · intro h bad
    simp only [chars, List.mem_cons, List.not_mem_nil, or_false] at bad
    rcases bad with rfl | rfl | rfl | rfl <;> cases h
  · intro other
    cases h : ofChar? c with
    | none => rfl
    | some a =>
      rw [← ofChar?_eq_some_iff.mp h] at other
      exact absurd (by cases a <;> decide) other

namespace Pauli

theorem readLetters_eq_ok_iff {position : Nat} {cs : List Char} {as : List Letter} :
    readLetters position cs = .ok as ↔ as.map Letter.toChar = cs := by
  constructor
  · intro h
    induction cs generalizing position as with
    | nil =>
      cases h
      rfl
    | cons c cs ih =>
      cases first : Letter.ofChar? c with
      | none => simp [readLetters, first] at h
      | some a =>
        cases rest : readLetters (position + 1) cs with
        | error e => simp [readLetters, first, rest] at h
        | ok as' =>
          simp only [readLetters, first, rest, Except.ok.injEq] at h
          rw [← h, List.map_cons, Letter.ofChar?_eq_some_iff.mp first, ih rest]
  · rintro rfl
    exact readLetters_toChar position as

theorem readLetters_eq_error_iff {position : Nat} {cs : List Char} {e : InvalidLetter} :
    readLetters position cs = .error e ↔
      First (· ∈ Letter.chars) (fun k c => c ∉ Letter.chars ∧ e = ⟨c, position + k⟩) cs := by
  induction cs generalizing position with
  | nil => simp [readLetters, first_nil]
  | cons c cs ih =>
    -- The rest is counted from one position further on.
    have later := @ih (position + 1)
    simp only [Nat.add_assoc, Nat.add_comm 1] at later
    rw [first_cons, ← later, Nat.add_zero]
    cases first : Letter.ofChar? c with
    | none =>
      have bad := Letter.ofChar?_eq_none_iff.mp first
      simp [readLetters, first, bad, eq_comm]
    | some a =>
      have good : c ∈ Letter.chars := by
        by_contra bad
        rw [Letter.ofChar?_eq_none_iff.mpr bad] at first
        cases first
      cases rest : readLetters (position + 1) cs <;> simp [readLetters, first, rest, good]

/-- An operator is read from its own text only. -/
theorem read_eq_ok_iff {text : String} {p : Pauli} : read text = .ok p ↔ p.text = text := by
  constructor
  · intro h
    cases letters : readLetters 0 text.toList with
    | error e => simp [read, letters, Except.map] at h
    | ok as =>
      simp only [read, letters, Except.map, Except.ok.injEq] at h
      rw [← h, Pauli.text, readLetters_eq_ok_iff.mp letters, String.ofList_toList]
  · rintro rfl
    exact read_text p

/-- A text is refused for its first character that is no letter. -/
theorem read_eq_error_iff {text : String} {e : InvalidLetter} :
    read text = .error e ↔
      First (· ∈ Letter.chars) (fun k c => c ∉ Letter.chars ∧ e = ⟨c, k⟩) text.toList := by
  have stops := @readLetters_eq_error_iff 0 text.toList e
  simp only [Nat.zero_add] at stops
  rw [← stops, read]
  cases readLetters 0 text.toList <;> simp [Except.map]

theorem exists_read_iff {text : String} :
    (∃ p, read text = .ok p) ↔ ∀ c ∈ text.toList, c ∈ Letter.chars := by
  constructor
  · rintro ⟨p, h⟩ c hc
    rw [← read_eq_ok_iff.mp h, Pauli.text, String.toList_ofList] at hc
    obtain ⟨a, -, rfl⟩ := List.mem_map.mp hc
    cases a <;> decide
  · intro letters
    cases h : read text with
    | ok p => exact ⟨p, rfl⟩
    | error e =>
      obtain ⟨before, c, after, split, -, bad, -⟩ := read_eq_error_iff.mp h
      exact absurd (letters c (by simp [split])) bad

@[simp] theorem length_text (p : Pauli) : p.text.length = p.size := by
  simp [Pauli.text, Pauli.size]

/-- Texts over the four letters, all of one length, are read as operators that have these texts. -/
theorem exists_mapM_read {n : Nat} {texts : List String}
    (letters : ∀ t ∈ texts, ∀ c ∈ t.toList, c ∈ ['I', 'X', 'Y', 'Z'])
    (lengths : ∀ t ∈ texts, t.length = n) :
    ∃ paulis, texts.mapM read = .ok paulis ∧ paulis.map text = texts ∧
      ∀ p ∈ paulis, p.size = n := by
  obtain ⟨paulis, readAll⟩ : ∃ paulis, texts.mapM read = .ok paulis :=
    exists_mapM_iff.mpr fun t ht => exists_read_iff.mpr (letters t ht)
  have written : paulis.map text = texts := by
    rw [← List.forall₂_eq_eq_eq, List.forall₂_map_left_iff]
    exact (mapM_eq_ok_iff.mp readAll).flip.imp fun p t h => read_eq_ok_iff.mp h
  refine ⟨paulis, readAll, written, fun p hp => ?_⟩
  rw [← lengths p.text (written ▸ List.mem_map_of_mem hp), length_text]

end Pauli

/-! ## Gates -/

namespace TaggedGate

variable {g : TaggedGate} {e e' : TagError}

/-- What a tagged gate stands for. A CX gate has two spellings. -/
inductive Denotes : TaggedGate → Gate → Prop
  | h (k : Nat) : Denotes ⟨"H", [k]⟩ (.h k)
  | s (k : Nat) : Denotes ⟨"S", [k]⟩ (.s k)
  | cnot {c t : Nat} (apart : c ≠ t) : Denotes ⟨"CNOT", [c, t]⟩ (.cx c t)
  | cx {c t : Nat} (apart : c ≠ t) : Denotes ⟨"CX", [c, t]⟩ (.cx c t)
  | cz {a b : Nat} (apart : a ≠ b) : Denotes ⟨"CZ", [a, b]⟩ (.cz a b)
  | meas (k id : Nat) : Denotes ⟨"MEASUREMENT", [k, id]⟩ (.meas k id)

/-- The tags, each with the number of operands it takes. -/
def arities : List (String × Nat) :=
  [("H", 1), ("S", 1), ("CNOT", 2), ("CX", 2), ("CZ", 2), ("MEASUREMENT", 2)]

/-- The tags of the gates on two different qubits. -/
def pairTags : List String :=
  ["CNOT", "CX", "CZ"]

/-- A known tag with as many operands as it takes, which differ if they are two qubits. -/
structure WellFormed (g : TaggedGate) : Prop where
  arity : (g.tag, g.operands.length) ∈ arities
  apart : g.tag ∈ pairTags → g.operands.Nodup

/-- What is wrong with a tagged gate. The tag comes before the number of operands, and this before
the operands themselves. -/
inductive Flaw (g : TaggedGate) : TagError → Prop
  | tag (unknown : ∀ n, (g.tag, n) ∉ arities) : Flaw g (.unknownTag g.tag)
  | arity {n : Nat} (known : (g.tag, n) ∈ arities) (other : g.operands.length ≠ n) :
      Flaw g (.wrongArity g.tag n g.operands.length)
  | repeated {k : Nat} (pair : g.tag ∈ pairTags) (twice : g.operands = [k, k]) :
      Flaw g (.repeatedQubit g.tag k)

theorem arity_unique {tag : String} {n n' : Nat} (h : (tag, n) ∈ arities)
    (h' : (tag, n') ∈ arities) : n = n' := by
  have tags : (arities.map Prod.fst).Nodup := by decide
  exact congrArg Prod.snd (List.inj_on_of_nodup_map tags h h' rfl)

theorem arity_of_pair {tag : String} (h : tag ∈ pairTags) : (tag, 2) ∈ arities := by
  have both : ∀ tag ∈ pairTags, (tag, 2) ∈ arities := by decide
  exact both tag h

theorem Denotes.wellFormed {gate : Gate} (h : g.Denotes gate) : g.WellFormed := by
  cases h with
  | h | s | meas => exact ⟨by simp [arities], by simp [pairTags]⟩
  | cnot apart | cx apart | cz apart => exact ⟨by simp [arities], by simp [apart]⟩

namespace Flaw

theorem not_wellFormed (h : g.Flaw e) : ¬ g.WellFormed := by
  rintro ⟨arity, apart⟩
  cases h with
  | tag unknown => exact unknown _ arity
  | arity known other => exact other (arity_unique arity known)
  | repeated pair twice =>
    have distinct := apart pair
    simp [twice] at distinct

theorem unique (h : g.Flaw e) (h' : g.Flaw e') : e = e' := by
  cases h with
  | tag unknown =>
    cases h' with
    | tag => rfl
    | arity known => exact absurd known (unknown _)
    | repeated pair => exact absurd (arity_of_pair pair) (unknown _)
  | arity known other =>
    cases h' with
    | tag unknown => exact absurd known (unknown _)
    | arity known' => rw [arity_unique known known']
    | repeated pair twice =>
      rw [twice] at other
      exact absurd (arity_unique (arity_of_pair pair) known) other
  | repeated pair twice =>
    cases h' with
    | tag unknown => exact absurd (arity_of_pair pair) (unknown _)
    | arity known other =>
      rw [twice] at other
      exact absurd (arity_unique (arity_of_pair pair) known) other
    | repeated _ twice' =>
      rw [twice] at twice'
      cases twice'
      rfl

end Flaw

/-- A result that is right for the gate: what it stands for, or its flaw. -/
def Answered (g : TaggedGate) : Except TagError Gate → Prop
  | .ok gate => g.Denotes gate
  | .error e => g.Flaw e

theorem answered_readOne {make : Nat → Gate} (known : (g.tag, 1) ∈ arities)
    (denotes : ∀ k, Denotes ⟨g.tag, [k]⟩ (make k)) : g.Answered (g.readOne make) := by
  obtain ⟨tag, operands⟩ := g
  match operands with
  | [] => exact .arity known (by simp)
  | [k] => exact denotes k
  | k :: k' :: rest => exact .arity known (by simp)

theorem answered_readTwo {make : Nat → Nat → Gate} (known : (g.tag, 2) ∈ arities)
    (denotes : ∀ a b, Denotes ⟨g.tag, [a, b]⟩ (make a b)) : g.Answered (g.readTwo make) := by
  obtain ⟨tag, operands⟩ := g
  match operands with
  | [] | [k] => exact .arity known (by simp)
  | [a, b] => exact denotes a b
  | a :: b :: k :: rest => exact .arity known (by simp)

theorem answered_readPair {make : Nat → Nat → Gate} (pair : g.tag ∈ pairTags)
    (denotes : ∀ a b, a ≠ b → Denotes ⟨g.tag, [a, b]⟩ (make a b)) :
    g.Answered (g.readPair make) := by
  obtain ⟨tag, operands⟩ := g
  have known := arity_of_pair pair
  match operands with
  | [] | [k] => exact .arity known (by simp)
  | [a, b] =>
    by_cases same : a = b
    · subst same
      have refused : readPair make ⟨tag, [a, a]⟩ = .error (.repeatedQubit tag a) := if_pos rfl
      rw [refused]
      exact .repeated pair rfl
    · have accepted : readPair make ⟨tag, [a, b]⟩ = .ok (make a b) := if_neg same
      rw [accepted]
      exact denotes a b same
  | a :: b :: k :: rest => exact .arity known (by simp)

theorem answered_read (g : TaggedGate) : g.Answered g.read := by
  obtain ⟨tag, operands⟩ := g
  unfold read
  split
  · rename_i h
    cases h
    exact answered_readOne (by simp [arities]) .h
  split
  · rename_i h
    cases h
    exact answered_readOne (by simp [arities]) .s
  split
  · rename_i h
    rcases h with h | h <;> cases h
    · exact answered_readPair (by simp [pairTags]) fun _ _ => .cnot
    · exact answered_readPair (by simp [pairTags]) fun _ _ => .cx
  split
  · rename_i h
    cases h
    exact answered_readPair (by simp [pairTags]) fun _ _ => .cz
  split
  · rename_i h
    cases h
    exact answered_readTwo (by simp [arities]) .meas
  · refine .tag fun n => ?_
    simp_all [arities]

theorem read_eq_ok_iff {gate : Gate} : g.read = .ok gate ↔ g.Denotes gate := by
  constructor
  · intro h
    have answered := g.answered_read
    rwa [h] at answered
  · intro h
    cases h with
    | h | s | meas => rfl
    | cnot apart | cx apart | cz apart => simp [read, readPair, apart]

theorem read_eq_error_iff : g.read = .error e ↔ g.Flaw e := by
  constructor
  · intro h
    have answered := g.answered_read
    rwa [h] at answered
  · intro flaw
    have answered := g.answered_read
    cases h : g.read with
    | ok gate =>
      rw [h] at answered
      exact absurd (Denotes.wellFormed answered) flaw.not_wellFormed
    | error e' =>
      rw [h] at answered
      rw [flaw.unique answered]

theorem exists_read_iff : (∃ gate, g.read = .ok gate) ↔ g.WellFormed := by
  constructor
  · rintro ⟨gate, h⟩
    exact (read_eq_ok_iff.mp h).wellFormed
  · intro wellFormed
    cases h : g.read with
    | ok gate => exact ⟨gate, rfl⟩
    | error e => exact absurd wellFormed (read_eq_error_iff.mp h).not_wellFormed

end TaggedGate

/-- The form in which a gate is written stands for it. -/
theorem Gate.denotes_tagged {g : Gate} (distinct : ∀ k, g ≠ .cx k k ∧ g ≠ .cz k k) :
    g.tagged.Denotes g := by
  cases g with
  | h k => exact .h k
  | s k => exact .s k
  | cx c t => exact .cnot fun same => (distinct c).1 (by rw [same])
  | cz a b => exact .cz fun same => (distinct a).2 (by rw [same])
  | meas k id => exact .meas k id

/-! ## Steps and networks -/

/-- An entry of the exchange form: a gate, or the text of an axis. -/
inductive TaggedEntry where
  | gate (g : TaggedGate)
  | axis (text : String)
  deriving DecidableEq, Repr

namespace TaggedEntry

/-- The entries of a step in reading order. -/
def ofStep (s : TaggedStep) : List TaggedEntry :=
  s.piece.map gate ++ [axis s.axis]

/-- The entries of a whole network in reading order. -/
def ofSteps (steps : List TaggedStep) : List TaggedEntry :=
  steps.flatMap ofStep

def WellFormed : TaggedEntry → Prop
  | gate g => g.WellFormed
  | axis text => ∀ c ∈ text.toList, c ∈ Letter.chars

/-- What is wrong with an entry. In an axis it is the first character that is no letter. -/
inductive Flaw : TaggedEntry → NetworkError → Prop
  | gate {g : TaggedGate} {e : TagError} (flaw : g.Flaw e) : Flaw (.gate g) (.gate e)
  | axis {text : String} {before after : List Char} {c : Char}
      (split : text.toList = before ++ c :: after) (letters : ∀ b ∈ before, b ∈ Letter.chars)
      (bad : c ∉ Letter.chars) : Flaw (.axis text) (.axis ⟨c, before.length⟩)

/-- An entry has the flaw, and all entries before it are well formed. -/
def FirstFlaw (entries : List TaggedEntry) (e : NetworkError) : Prop :=
  First WellFormed (fun _ entry => entry.Flaw e) entries

variable {g : TaggedGate} {e : NetworkError}

theorem flaw_gate_iff : Flaw (.gate g) e ↔ ∃ cause, g.read = .error cause ∧ e = .gate cause := by
  constructor
  · rintro ⟨flaw⟩
    exact ⟨_, TaggedGate.read_eq_error_iff.mpr flaw, rfl⟩
  · rintro ⟨cause, refused, rfl⟩
    exact .gate (TaggedGate.read_eq_error_iff.mp refused)

theorem flaw_axis_iff {text : String} :
    Flaw (.axis text) e ↔ ∃ cause, Pauli.read text = .error cause ∧ e = .axis cause := by
  constructor
  · intro h
    cases h with
    | axis split letters bad =>
      exact ⟨_, Pauli.read_eq_error_iff.mpr ⟨_, _, _, split, letters, bad, rfl⟩, rfl⟩
  · rintro ⟨cause, refused, rfl⟩
    obtain ⟨before, c, after, split, letters, bad, rfl⟩ := Pauli.read_eq_error_iff.mp refused
    exact .axis split letters bad

/-- The gates of a piece are read up to the first flaw. -/
theorem firstFlaw_gates {piece : List TaggedGate} : FirstFlaw (piece.map gate) e ↔
    ∃ cause, piece.mapM TaggedGate.read = .error cause ∧ e = .gate cause := by
  induction piece with
  | nil => simp [FirstFlaw, first_nil, pure, Except.pure]
  | cons g piece ih =>
    rw [List.map_cons, FirstFlaw, first_cons, ← FirstFlaw, ih, flaw_gate_iff, WellFormed,
      ← TaggedGate.exists_read_iff]
    simp only [mapM_cons_eq_error_iff, or_and_right, exists_or, and_assoc, exists_and_left]

end TaggedEntry

namespace TaggedStep

variable {t : TaggedStep} {e : NetworkError}

/-- What a tagged step stands for: gate by gate, with the axis as its text. -/
structure Denotes (t : TaggedStep) (s : Step) : Prop where
  piece : List.Forall₂ TaggedGate.Denotes t.piece s.piece
  axis : s.axis.text = t.axis
  sign : s.sign = t.sign

theorem read_eq_ok_iff {s : Step} : t.read = .ok s ↔ t.Denotes s := by
  have gates : ∀ piece, t.piece.mapM TaggedGate.read = .ok piece ↔
      List.Forall₂ TaggedGate.Denotes t.piece piece := by
    intro piece
    simp only [mapM_eq_ok_iff, TaggedGate.read_eq_ok_iff]
  constructor
  · intro h
    cases piece : t.piece.mapM TaggedGate.read with
    | error e => simp [read, piece] at h
    | ok gates' =>
      cases axis : Pauli.read t.axis with
      | error e => simp [read, piece, Step.read, axis] at h
      | ok p =>
        simp only [read, piece, Step.read, axis, Except.ok.injEq] at h
        subst h
        exact ⟨(gates _).mp piece, Pauli.read_eq_ok_iff.mp axis, rfl⟩
  · rintro ⟨piece, axis, sign⟩
    rw [read, (gates s.piece).mpr piece]
    simp only [Step.read, Pauli.read_eq_ok_iff.mpr axis, ← sign]

theorem exists_read_iff :
    (∃ s, t.read = .ok s) ↔ ∀ entry ∈ TaggedEntry.ofStep t, entry.WellFormed := by
  have gates : (∃ piece, t.piece.mapM TaggedGate.read = .ok piece) ↔
      ∀ g ∈ t.piece, g.WellFormed := by
    simp only [exists_mapM_iff, TaggedGate.exists_read_iff]
  have axis : (∃ p, Pauli.read t.axis = .ok p) ↔ ∀ c ∈ t.axis.toList, c ∈ Letter.chars :=
    Pauli.exists_read_iff
  simp only [TaggedEntry.ofStep, List.forall_mem_append, List.forall_mem_map,
    List.forall_mem_singleton, TaggedEntry.WellFormed, ← gates, ← axis]
  cases piece : t.piece.mapM TaggedGate.read with
  | error e => simp [read, piece]
  | ok gates' => cases axis : Pauli.read t.axis <;> simp [read, piece, Step.read, axis]

theorem read_eq_error_iff :
    t.read = .error e ↔ TaggedEntry.FirstFlaw (TaggedEntry.ofStep t) e := by
  have gates : (∀ entry ∈ t.piece.map TaggedEntry.gate, entry.WellFormed) ↔
      ∃ piece, t.piece.mapM TaggedGate.read = .ok piece := by
    simp only [exists_mapM_iff, TaggedGate.exists_read_iff, List.forall_mem_map,
      TaggedEntry.WellFormed]
  rw [TaggedEntry.ofStep, TaggedEntry.FirstFlaw, first_append, ← TaggedEntry.FirstFlaw,
    TaggedEntry.firstFlaw_gates, gates, first_cons, TaggedEntry.flaw_axis_iff]
  cases piece : t.piece.mapM TaggedGate.read with
  | error cause => simp [read, piece, eq_comm]
  | ok gates' =>
    cases axis : Pauli.read t.axis <;> simp [read, piece, Step.read, axis, first_nil, eq_comm]

end TaggedStep

namespace Network

variable {steps : List TaggedStep}

theorem ofTagged_eq_ok_iff {network : Network} :
    ofTagged steps = .ok network ↔ List.Forall₂ TaggedStep.Denotes steps network.steps := by
  have denotes : ∀ list, steps.mapM TaggedStep.read = .ok list ↔
      List.Forall₂ TaggedStep.Denotes steps list := by
    intro list
    simp only [mapM_eq_ok_iff, TaggedStep.read_eq_ok_iff]
  obtain ⟨list⟩ := network
  rw [← denotes, ofTagged]
  cases steps.mapM TaggedStep.read <;> simp [Except.map]

theorem exists_ofTagged_iff :
    (∃ network, ofTagged steps = .ok network) ↔
      ∀ t ∈ steps, ∀ entry ∈ TaggedEntry.ofStep t, entry.WellFormed := by
  simp only [← TaggedStep.exists_read_iff, ← exists_mapM_iff, ofTagged]
  cases steps.mapM TaggedStep.read <;> simp [Except.map]

theorem ofTagged_eq_error_iff {e : NetworkError} :
    ofTagged steps = .error e ↔ TaggedEntry.FirstFlaw (TaggedEntry.ofSteps steps) e := by
  have steps' : steps.mapM TaggedStep.read = .error e ↔
      TaggedEntry.FirstFlaw (TaggedEntry.ofSteps steps) e := by
    induction steps with
    | nil => simp [TaggedEntry.ofSteps, TaggedEntry.FirstFlaw, first_nil, pure, Except.pure]
    | cons t steps ih =>
      rw [mapM_cons_eq_error_iff, TaggedStep.read_eq_error_iff, TaggedStep.exists_read_iff, ih]
      exact first_append.symm
  rw [← steps', ofTagged]
  cases steps.mapM TaggedStep.read <;> simp [Except.map]

/-- What is written is read as what was written. -/
theorem ofTagged_tagged {network : Network}
    (distinct : ∀ s ∈ network.steps, ∀ g ∈ s.piece, ∀ k, g ≠ .cx k k ∧ g ≠ .cz k k) :
    ofTagged network.tagged = .ok network := by
  rw [ofTagged_eq_ok_iff, tagged, List.forall₂_map_left_iff, List.forall₂_same]
  intro s hs
  refine ⟨?_, rfl, rfl⟩
  rw [Step.tagged, List.forall₂_map_left_iff, List.forall₂_same]
  intro g hg
  exact Gate.denotes_tagged (distinct s hs g hg)

end Network

/-- **The exchange form is read exactly.** A network is read if every gate has a known tag with as
many operands as it takes, different ones if they are two qubits, and every axis has only letters;
then it is read as what its entries stand for. If not, it is refused for the first entry that is
not well formed, and for what is wrong with that one. Reading undoes writing, except for CX and CZ
gates whose qubits agree. -/
theorem exchange_form_is_exact :
    (∀ steps : List TaggedStep,
      ((∃ network, Network.ofTagged steps = .ok network) ↔ ∀ t ∈ steps,
        (∀ g ∈ t.piece, g.WellFormed) ∧ ∀ c ∈ t.axis.toList, c ∈ Letter.chars) ∧
      (∀ network, Network.ofTagged steps = .ok network ↔
        List.Forall₂ TaggedStep.Denotes steps network.steps) ∧
      ∀ e, Network.ofTagged steps = .error e ↔ ∃ before entry after,
        TaggedEntry.ofSteps steps = before ++ entry :: after ∧ (∀ b ∈ before, b.WellFormed) ∧
          entry.Flaw e) ∧
    ∀ network : Network,
      (∀ s ∈ network.steps, ∀ g ∈ s.piece, ∀ k, g ≠ .cx k k ∧ g ≠ .cz k k) →
      Network.ofTagged network.tagged = .ok network := by
  refine ⟨fun steps => ⟨?_, fun network => Network.ofTagged_eq_ok_iff,
    fun e => Network.ofTagged_eq_error_iff⟩, fun network => Network.ofTagged_tagged⟩
  rw [Network.exists_ofTagged_iff]
  refine forall₂_congr fun t _ => ?_
  simp [TaggedEntry.ofStep, TaggedEntry.WellFormed, or_imp, forall_and]

/-- The second axis has a character that is no letter. It is reported, and not the unknown tag
behind it; the measurement before it may repeat a number. A network with such a measurement is read
back. -/
theorem exchange_form_of_bad_letter :
    let steps : List TaggedStep := [⟨[⟨"CX", [1, 0]⟩, ⟨"H", [1]⟩], false, "IZ"⟩,
      ⟨[⟨"MEASUREMENT", [2, 2]⟩], true, "ZéX"⟩, ⟨[⟨"T", [0]⟩], false, "ZI"⟩]
    let network : Network := ⟨[⟨[.cx 1 0, .meas 2 2], ⟨[.I, .Z, .Y]⟩, true⟩]⟩
    (∃ before entry after, TaggedEntry.ofSteps steps = before ++ entry :: after ∧
      (∀ b ∈ before, b.WellFormed) ∧ entry.Flaw (.axis ⟨'é', 1⟩)) ∧
    Network.ofTagged network.tagged = .ok network := by
  intro steps network
  have refused : Network.ofTagged steps = .error (.axis ⟨'é', 1⟩) := by decide
  obtain ⟨reads, undoes⟩ := exchange_form_is_exact
  obtain ⟨-, -, errors⟩ := reads steps
  exact ⟨(errors _).mp refused, undoes network (by simp [network])⟩

end HadamardFree
