import HadamardFree.Capacity
import HadamardFree.Pauli.Letter
import HadamardFree.Text.Quoted

/-!
# Pauli operators

A Pauli operator on `n` qubits up to phase: one letter for each qubit, qubit 0
first. The axis of a rotation is such an operator too.
-/

namespace HadamardFree

structure Pauli where
  letters : List Letter
  deriving DecidableEq, Repr

/-- A character that is no Pauli letter, and where it stands. -/
structure InvalidLetter where
  found : Char
  position : Nat
  deriving DecidableEq, Repr

def InvalidLetter.message (e : InvalidLetter) : String :=
  "invalid Pauli letter " ++ Text.quoteChar e.found ++ s!" at position {e.position}"

namespace Pauli

def size (p : Pauli) : Nat :=
  p.letters.length

def identity (n : Nat) : Pauli :=
  ⟨List.replicate n .I⟩

def identity? (n : Nat) : Option Pauli :=
  if fitsLetters n then some (identity n) else none

/-- `a` on qubit `k` of `n` and the identity elsewhere. -/
def single (n k : Nat) (a : Letter) : Pauli :=
  ⟨(List.replicate n .I).set k a⟩

def single? (n k : Nat) (a : Letter) : Option Pauli :=
  if fitsLetters n ∧ k < n then some (single n k a) else none

def get? (p : Pauli) (k : Nat) : Option Letter :=
  p.letters[k]?

/-- The letter on qubit `k`, which is the identity beyond the last qubit. -/
def letter (p : Pauli) (k : Nat) : Letter :=
  p.letters.getD k .I

def xBits (p : Pauli) : List Bool :=
  p.letters.map Letter.x

def zBits (p : Pauli) : List Bool :=
  p.letters.map Letter.z

def isIdentity (p : Pauli) : Bool :=
  p.letters.all (· == .I)

def isDiagonal (p : Pauli) : Bool :=
  p.letters.all Letter.isDiagonal

/-- The number of qubits on which the two operators anticommute. Where one of
them has ended there is nothing to count. -/
def clashes (p q : Pauli) : Nat :=
  (p.letters.zip q.letters).countP fun (a, b) => a.anticommutes b

/-- Two operators commute if they anticommute on an even number of qubits. -/
def commutes (p q : Pauli) : Bool :=
  p.clashes q % 2 == 0

def text (p : Pauli) : String :=
  String.ofList (p.letters.map Letter.toChar)

/-- Reads the letters of `cs`, the first of which stands at `position`. -/
def readLetters (position : Nat) : List Char → Except InvalidLetter (List Letter)
  | [] => .ok []
  | c :: cs =>
    match Letter.ofChar? c with
    | none => .error ⟨c, position⟩
    | some a =>
      match readLetters (position + 1) cs with
      | .error e => .error e
      | .ok rest => .ok (a :: rest)

/-- Reads an operator from its letters; the first bad character is reported,
at its position counted in characters. -/
def read (s : String) : Except InvalidLetter Pauli :=
  (readLetters 0 s.toList).map Pauli.mk

@[simp] theorem size_identity (n : Nat) : (identity n).size = n := by
  simp [size, identity]

@[simp] theorem size_single (n k : Nat) (a : Letter) : (single n k a).size = n := by
  simp [size, single]

theorem letter_of_size_le {p : Pauli} {k : Nat} (h : p.size ≤ k) : p.letter k = .I := by
  simp [letter, List.getD, List.getElem?_eq_none (show p.letters.length ≤ k from h)]

theorem get?_eq_letter {p : Pauli} {k : Nat} (hk : k < p.size) : p.get? k = some (p.letter k) := by
  have inside : k < p.letters.length := hk
  simp [get?, letter, List.getD, inside]

/-- Operators are equal if they have the same size and letters. -/
theorem ext_letter {p q : Pauli} (size : p.size = q.size)
    (letters : ∀ k, k < p.size → p.letter k = q.letter k) : p = q := by
  cases p with | mk as =>
  cases q with | mk bs =>
  have same : as = bs := by
    apply List.ext_getElem size
    intro k hk hk'
    have := letters k hk
    simpa [letter, List.getD, hk, hk'] using this
  rw [same]

theorem clashes_comm (p q : Pauli) : p.clashes q = q.clashes p := by
  cases p with | mk as =>
  cases q with | mk bs =>
  simp only [clashes]
  induction as generalizing bs with
  | nil => simp
  | cons a as ih =>
    cases bs with
    | nil => simp
    | cons b bs =>
      have same : a.anticommutes b = b.anticommutes a := by cases a <;> cases b <;> rfl
      simp [List.countP_cons, ih, same]

theorem commutes_comm (p q : Pauli) : p.commutes q = q.commutes p := by
  simp [commutes, clashes_comm p q]

theorem readLetters_toChar (position : Nat) (as : List Letter) :
    readLetters position (as.map Letter.toChar) = .ok as := by
  induction as generalizing position with
  | nil => rfl
  | cons a as ih => simp [readLetters, Letter.ofChar?_toChar, ih]

theorem read_text (p : Pauli) : read p.text = .ok p := by
  simp [read, text, readLetters_toChar, Except.map]

end Pauli

end HadamardFree
