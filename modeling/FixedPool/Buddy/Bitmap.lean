import FixedPool.Buddy.Block

/-!
One bit for each block of every tier, in words of 64 bits.
-/

namespace FixedPool

/-- Marks on blocks. -/
structure Bitmap where
  words : Array UInt64

namespace Bitmap

/-- No block of `count` tiers is marked. -/
def empty (count : Nat) : Checked Bitmap := do
  let bits ← Word.shiftLeft 1 count
  return ⟨Array.replicate ((bits + 63) / 64) 0⟩

/-- The bytes that the words take. -/
def footprint (m : Bitmap) : Nat := m.words.size * 8

/-- The bit of a block, which must be in one of the words. -/
def bitOf (m : Bitmap) (b : Block) : Checked Nat := do
  let bit ← b.place
  if bit / 64 < m.words.size then return bit
  throw (.indexOutside m.words.size (bit / 64))

/-- A word with one bit set, by the low six bits of `bit`. -/
def bitMask (bit : Nat) : UInt64 := 1 <<< UInt64.ofNat (bit % 64)

def testBit (m : Bitmap) (bit : Nat) : Bool :=
  (m.words[bit / 64]?.getD 0 &&& bitMask bit) != 0

def setBit (m : Bitmap) (bit : Nat) : Bitmap :=
  ⟨m.words.modify (bit / 64) (· ||| bitMask bit)⟩

def clearBit (m : Bitmap) (bit : Nat) : Bitmap :=
  ⟨m.words.modify (bit / 64) (· &&& ~~~bitMask bit)⟩

/-- Whether a block is marked. -/
def isMarked (m : Bitmap) (b : Block) : Checked Bool := do
  return m.testBit (← m.bitOf b)

/-- Marks a block. -/
def mark (b : Block) : Op Bitmap Unit := do
  let bit ← (← get).bitOf b
  modify (·.setBit bit)

/-- Takes the mark off a block. -/
def unmark (b : Block) : Op Bitmap Unit := do
  let bit ← (← get).bitOf b
  modify (·.clearBit bit)

end Bitmap

end FixedPool
