import FixedPool.Fault

/-!
Arithmetic on machine words of 64 bits, as natural numbers below `Word.bound`: each operation
checks its result, so that none wraps. Powers of two and alignment are built on it.
-/

namespace FixedPool.Word

/-- One more than the largest word. -/
def bound : Nat := UInt64.size

def add (a b : Nat) : Checked Nat :=
  if a + b < bound then .ok (a + b) else .error .addOverflow

def sub (a b : Nat) : Checked Nat :=
  if b ≤ a then .ok (a - b) else .error .subOverflow

def mul (a b : Nat) : Checked Nat :=
  if a * b < bound then .ok (a * b) else .error .mulOverflow

/-- Shifts left; bits that leave the word are lost, and only the distance is checked. -/
def shiftLeft (a distance : Nat) : Checked Nat :=
  if distance < 64 then .ok ((a <<< distance) % bound) else .error .shiftOverflow

/-- Every bit of the word flipped. -/
def complement (a : Nat) : Nat := bound - 1 - a

/-- The least multiple of the power of two `align` that is at least `value`. -/
def roundUp (value align : Nat) : Checked Nat := do
  let past ← sub (← add value align) 1
  return past &&& complement (← sub align 1)

/-- Whether `value` is a multiple of the power of two `align`. -/
def isMultiple (value align : Nat) : Checked Bool := do
  return value &&& (← sub align 1) == 0

/-- Powers of two are the numbers that their binary logarithm gives back. -/
def IsPowerOfTwo (n : Nat) : Prop := n = 1 <<< n.log2

instance (n : Nat) : Decidable (IsPowerOfTwo n) := inferInstanceAs (Decidable (_ = _))

/-- The least power of two that is at least `n`. -/
def nextPowerOfTwo (n : Nat) : Nat :=
  if n ≤ 1 then 1 else 1 <<< ((n - 1).log2 + 1)

/-- The place of the lowest set bit, and 64 if no bit is set. -/
def trailingZeros (n : Nat) : Nat :=
  ((List.range 64).find? n.testBit).getD 64

/-- The least power of two that holds `size`, kept between `2 ^ least` and `2 ^ most`. -/
def powerOfTwoWithin (size least most : Nat) : Checked Nat := do
  let top ← shiftLeft 1 most
  if top ≤ size then
    return top
  return nextPowerOfTwo (max size (← shiftLeft 1 least))

end FixedPool.Word
