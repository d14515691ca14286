import FixedPool.Word

/-!
The binary tree of blocks that a power-of-two capacity is split into. Tier 0 is the whole capacity;
each further tier halves the blocks of the one before, down to the smallest block of 16 bytes.
-/

namespace FixedPool

/-- A block, by its tier and its place from the left in that tier. -/
structure Block where
  tier : Nat
  index : Nat
deriving DecidableEq, Repr

namespace Block

def root : Block := ⟨0, 0⟩

/-- Tier `t < 32` has `2 ^ t` blocks. -/
def Exists (b : Block) : Prop := b.tier < 32 ∧ b.index < 1 <<< b.tier

instance (b : Block) : Decidable b.Exists := inferInstanceAs (Decidable (_ ∧ _))

/-- The block with this tier and index, if there is one. -/
def of (tier index : Nat) : Checked Block :=
  if Exists ⟨tier, index⟩ then .ok ⟨tier, index⟩ else .error (.noSuchBlock tier index)

/-- The other half of the block that this one is a half of. -/
def buddy (b : Block) : Block :=
  ⟨b.tier, if b.index % 2 = 0 then b.index + 1 else b.index - 1⟩

/-- The block that this one is a half of. -/
def parent : Block → Checked Block
  | ⟨0, _⟩ => .error .rootParent
  | ⟨tier + 1, index⟩ => .ok ⟨tier, index / 2⟩

/-- The first half of a block. -/
def leftChild (b : Block) : Block := ⟨b.tier + 1, 2 * b.index⟩

/-- The place of a block when the tiers are laid out one behind the other, from place 1. -/
def place (b : Block) : Checked Nat := do
  Word.add (← Word.shiftLeft 1 b.tier) b.index

end Block

/-- The smallest block, in bytes. -/
def leastBlock : Nat := 16

/-- How a capacity is split into tiers of blocks. -/
structure Tiers where
  capacity : Nat
  count : Nat
deriving DecidableEq, Repr

namespace Tiers

/-- The tiers of a capacity, which must be a power of two that holds the smallest block. -/
def of (capacity : Nat) : Checked Tiers := do
  if ¬ (Word.IsPowerOfTwo capacity ∧ leastBlock ≤ capacity) then
    throw .capacityShape
  return ⟨capacity, (← Word.sub (Word.trailingZeros capacity) 4) + 1⟩

/-- The tier of the smallest blocks. -/
def deepest (t : Tiers) : Checked Nat := Word.sub t.count 1

/-- The size of every block of a tier. -/
def width (t : Tiers) (tier : Nat) : Checked Nat := do
  Word.shiftLeft leastBlock (← Word.sub (← t.deepest) tier)

/-- The deepest tier whose blocks hold `size` bytes. -/
def fit (t : Tiers) (size : Nat) : Checked (Option Nat) := do
  if size = 0 ∨ t.capacity < size then
    return none
  let fit := Word.nextPowerOfTwo (max size leastBlock)
  return some (← Word.sub (Word.trailingZeros t.capacity) (Word.trailingZeros fit))

/-- Where a block begins. -/
def start (t : Tiers) (b : Block) : Checked Nat := do
  Word.mul b.index (← t.width b.tier)

/-- The block of a tier that begins at an offset, if one does. Indices keep 32 bits. -/
def starting (t : Tiers) (tier offset : Nat) : Checked (Option Block) := do
  let size ← t.width tier
  if ¬ (← Word.isMultiple offset size) ∨ t.capacity ≤ offset then
    return none
  return some ⟨tier, offset / size % UInt32.size⟩

end Tiers

end FixedPool
