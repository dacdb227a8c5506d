import HadamardFree.Pauli.Basic
import Mathlib.Data.List.Perm.Basic
import Mathlib.Logic.Function.Basic

/-!
# Parities

Signs of amplitudes and the commutation of operators are decided by whether a
number of positions is odd:

* `odd`: whether an odd number of entries satisfy a condition;
* `parity_xor`, `parity_update`: how parities change with the values;
* `parity_slots`: a parity over all slots of a register is one over the qubits,
  if nothing counts outside the slots of the qubits;
* `commutes_eq_parity`: two operators commute if the positions on which they
  anticommute have even parity.
-/

namespace HadamardFree

/-- Whether an odd number of entries satisfy `f`. -/
def odd {α : Type} (l : List α) (f : α → Bool) : Bool :=
  l.countP f % 2 == 1

section
variable {α : Type}

@[simp] theorem odd_nil (f : α → Bool) : odd [] f = false := rfl

theorem odd_append (l more : List α) (f : α → Bool) :
    odd (l ++ more) f = (odd l f ^^ odd more f) := by
  have mod : ∀ a b : Nat, ((a + b) % 2 == 1) = ((a % 2 == 1) ^^ (b % 2 == 1)) := by
    intro a b
    have ha : a % 2 = 0 ∨ a % 2 = 1 := by omega
    have hb : b % 2 = 0 ∨ b % 2 = 1 := by omega
    rcases ha with ha | ha <;> rcases hb with hb | hb <;> simp [Nat.add_mod, ha, hb]
  rw [odd, List.countP_append, mod]
  rfl

theorem odd_singleton (a : α) (f : α → Bool) : odd [a] f = f a := by
  cases h : f a <;> simp [odd, h]

theorem odd_cons (a : α) (l : List α) (f : α → Bool) : odd (a :: l) f = (f a ^^ odd l f) := by
  rw [← List.singleton_append, odd_append, odd_singleton]

theorem odd_map {β : Type} (g : β → α) (l : List β) (f : α → Bool) :
    odd (l.map g) f = odd l fun b => f (g b) := by
  rw [odd, List.countP_map]
  rfl

theorem odd_congr {l : List α} {f g : α → Bool} (h : ∀ a ∈ l, f a = g a) : odd l f = odd l g := by
  rw [odd, odd, List.countP_congr fun a ha => by rw [h a ha]]

theorem odd_eq_false {l : List α} {f : α → Bool} (h : ∀ a ∈ l, f a = false) :
    odd l f = false := by
  rw [odd, List.countP_eq_zero.mpr fun a ha => by simp [h a ha]]
  rfl

theorem odd_xor (l : List α) (f g : α → Bool) :
    odd l (fun a => f a ^^ g a) = (odd l f ^^ odd l g) := by
  induction l with
  | nil => rfl
  | cons a l ih =>
    rw [odd_cons, odd_cons, odd_cons, ih]
    cases f a <;> cases g a <;> cases odd l f <;> cases odd l g <;> rfl

end

/-- Whether an odd number of the first `n` values hold. -/
def parity (n : Nat) (f : Nat → Bool) : Bool :=
  odd (List.range n) f

@[simp] theorem parity_zero (f : Nat → Bool) : parity 0 f = false := rfl

theorem parity_succ (n : Nat) (f : Nat → Bool) : parity (n + 1) f = (parity n f ^^ f n) := by
  rw [parity, List.range_succ, odd_append, odd_singleton]
  rfl

theorem parity_congr {n : Nat} {f g : Nat → Bool} (h : ∀ k, k < n → f k = g k) :
    parity n f = parity n g :=
  odd_congr fun k hk => h k (List.mem_range.mp hk)

theorem parity_xor (n : Nat) (f g : Nat → Bool) :
    parity n (fun k => f k ^^ g k) = (parity n f ^^ parity n g) :=
  odd_xor ..

/-- Changing one value changes the parity if the value differs. -/
theorem parity_update {n j : Nat} (f : Nat → Bool) (b : Bool) (h : j < n) :
    parity n (Function.update f j b) = (parity n f ^^ (f j ^^ b)) := by
  induction n with
  | zero => omega
  | succ n ih =>
    rw [parity_succ, parity_succ]
    by_cases hj : j = n
    · subst hj
      have below : parity j (Function.update f j b) = parity j f :=
        parity_congr fun k hk => Function.update_of_ne (by omega) _ _
      rw [below, Function.update_self]
      cases parity j f <;> cases f j <;> cases b <;> rfl
    · rw [ih (by omega), Function.update_of_ne (Ne.symm hj)]
      cases parity n f <;> cases f j <;> cases b <;> cases f n <;> rfl

theorem parity_of_le {n m : Nat} {f : Nat → Bool} (le : n ≤ m)
    (h : ∀ k, n ≤ k → k < m → f k = false) : parity m f = parity n f := by
  induction m with
  | zero => rw [Nat.le_zero.mp le]
  | succ m ih =>
    by_cases top : n = m + 1
    · rw [top]
    · rw [parity_succ, h m (by omega) (by omega), Bool.xor_false]
      exact ih (by omega) fun k hk hm => h k hk (by omega)

/-- A parity over `width` slots is a parity over the qubits that live in them,
if nothing counts in a slot without a qubit. -/
theorem parity_slots {slots : List Nat} {width : Nat} {f : Nat → Bool} (distinct : slots.Nodup)
    (inside : ∀ slot ∈ slots, slot < width) (idle : ∀ k, k ∉ slots → f k = false) :
    parity width f = parity slots.length fun k => f (slots.getD k k) := by
  have places : (List.range slots.length).map (fun k => slots.getD k k) = slots := by
    apply List.ext_getElem (by simp)
    intro k hk hk'
    simp [List.getD_eq_getElem?_getD, hk']
  have counted : (List.range width).countP f = slots.countP f := by
    rw [List.countP_eq_length_filter, List.countP_eq_length_filter]
    apply List.Perm.length_eq
    apply (List.perm_ext_iff_of_nodup (List.nodup_range.filter _) (distinct.filter _)).mpr
    intro k
    simp only [List.mem_filter, List.mem_range]
    constructor
    · rintro ⟨-, hf⟩
      refine ⟨?_, hf⟩
      by_contra outside
      simp [idle k outside] at hf
    · rintro ⟨hk, hf⟩
      exact ⟨inside k hk, hf⟩
  have renamed : (List.range slots.length).countP (fun k => f (slots.getD k k)) =
      slots.countP f := by
    conv_rhs => rw [← places, List.countP_map]
    rfl
  rw [parity, parity, odd, odd, counted, renamed]

/-! ## Commutation -/

namespace Pauli

theorem clashes_eq_countP (p q : Pauli) :
    p.clashes q =
      (List.range (min p.size q.size)).countP fun k => (p.letter k).anticommutes (q.letter k) := by
  have listed : p.letters.zip q.letters =
      (List.range (min p.size q.size)).map fun k => (p.letter k, q.letter k) := by
    apply List.ext_getElem (by simp [size])
    intro k hk hk'
    have inside : k < p.letters.length ∧ k < q.letters.length := Nat.lt_min.mp (by simpa using hk)
    simp [letter, List.getD_eq_getElem?_getD, inside.1, inside.2]
  rw [clashes, listed, List.countP_map]
  rfl

/-- Operators commute if they anticommute on an even number of qubits, which are
known from their bits. Where one of them has ended nothing counts. -/
theorem commutes_eq_parity {n : Nat} {p q : Pauli} (h : min p.size q.size ≤ n) :
    p.commutes q = !parity n fun k =>
      ((p.letter k).x && (q.letter k).z) ^^ ((p.letter k).z && (q.letter k).x) := by
  have even : ∀ a : Nat, (a % 2 == 0) = !(a % 2 == 1) := by
    intro a
    have ha : a % 2 = 0 ∨ a % 2 = 1 := by omega
    rcases ha with ha | ha <;> simp [ha]
  have idle : ∀ k, min p.size q.size ≤ k → k < n →
      (((p.letter k).x && (q.letter k).z) ^^ ((p.letter k).z && (q.letter k).x)) = false := by
    intro k hk _
    have ended : p.size ≤ k ∨ q.size ≤ k := by omega
    rcases ended with hp | hq
    · simp [letter_of_size_le hp, Letter.x, Letter.z]
    · simp [letter_of_size_le hq, Letter.x, Letter.z]
  rw [parity_of_le h idle, commutes, clashes_eq_countP, even, parity, odd]
  simp only [Letter.anticommutes_eq_bits]

end Pauli

end HadamardFree
