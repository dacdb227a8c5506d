/-!
# Pauli letters

The four one-qubit Pauli operators up to phase. Each is a product of an X part
and a Z part, so two bits describe it, and multiplication adds the bits.
-/

namespace HadamardFree

inductive Letter where
  | I
  | X
  | Y
  | Z
  deriving DecidableEq, Repr

namespace Letter

def ofBits : Bool → Bool → Letter
  | false, false => I
  | true, false => X
  | true, true => Y
  | false, true => Z

/-- Whether there is an X part. -/
def x : Letter → Bool
  | I | Z => false
  | X | Y => true

/-- Whether there is a Z part. -/
def z : Letter → Bool
  | I | X => false
  | Y | Z => true

def isDiagonal : Letter → Bool
  | I | Z => true
  | X | Y => false

def toChar : Letter → Char
  | I => 'I'
  | X => 'X'
  | Y => 'Y'
  | Z => 'Z'

def ofChar? : Char → Option Letter
  | 'I' => some I
  | 'X' => some X
  | 'Y' => some Y
  | 'Z' => some Z
  | _ => none

/-- The product up to phase. -/
def times (a b : Letter) : Letter :=
  ofBits (a.x ^^ b.x) (a.z ^^ b.z)

def xPart (a : Letter) : Letter :=
  ofBits a.x false

def zPart (a : Letter) : Letter :=
  ofBits false a.z

/-- Two letters anticommute if they differ and neither is the identity. -/
def anticommutes (a b : Letter) : Bool :=
  a != I && b != I && a != b

@[simp] theorem ofBits_x_z (a : Letter) : ofBits a.x a.z = a := by
  cases a <;> rfl

@[simp] theorem x_ofBits (p q : Bool) : (ofBits p q).x = p := by
  cases p <;> cases q <;> rfl

@[simp] theorem z_ofBits (p q : Bool) : (ofBits p q).z = q := by
  cases p <;> cases q <;> rfl

theorem ofChar?_toChar (a : Letter) : ofChar? a.toChar = some a := by
  cases a <;> rfl

theorem isDiagonal_eq_not_x (a : Letter) : a.isDiagonal = !a.x := by
  cases a <;> rfl

/-- Anticommutation is the symplectic product of the bits. -/
theorem anticommutes_eq_bits (a b : Letter) :
    a.anticommutes b = ((a.x && b.z) ^^ (a.z && b.x)) := by
  cases a <;> cases b <;> rfl

end Letter

end HadamardFree
