/-!
# Capacity

A size that comes as a number, and not as the length of a list at hand, may be
more than memory can address. Whatever is laid out for such a size has its
bytes counted first: one for a letter or a bit, eight for a number. A number
itself is a word of 64 bits.
-/

namespace HadamardFree

/-- The least number of bytes that cannot be laid out. -/
def byteLimit : Nat :=
  1 <<< 63

/-- Whether a table of `n` letters or bits can be laid out. -/
def fitsLetters (n : Nat) : Bool :=
  decide (n < byteLimit)

/-- Whether a table of `n` numbers can be laid out. -/
def fitsNumbers (n : Nat) : Bool :=
  decide (8 * n < byteLimit)

/-- The least number that is not a word. -/
def wordLimit : Nat :=
  1 <<< 64

def fitsWord (n : Nat) : Bool :=
  decide (n < wordLimit)

end HadamardFree
