import FixedPool.Allocator

/-!
Allocation by memory layout: a size together with an alignment. Zeroed allocation and resizing are
built from plain allocation and release.
-/

namespace FixedPool

/-- A size and a power of two that addresses of such memory are multiples of. The size, rounded up
to the alignment, is at most `2 ^ 63`. -/
structure Layout where
  size : Nat
  align : Nat
  align_isPowerOfTwo : Word.IsPowerOfTwo align
  size_le : size ≤ (1 <<< 63) - align

namespace Layout

/-- The layout of a size and an alignment, if they go together. -/
def of (size align : Nat) : Except Error Layout :=
  if h : Word.IsPowerOfTwo align ∧ size ≤ (1 <<< 63) - align then .ok ⟨size, align, h.1, h.2⟩
  else .error .invalidLayout

variable {σ : Type} [Allocator σ]

/-- Allocates memory of a layout, and nothing if it asks for more than the pool's alignment. -/
def alloc (l : Layout) : Op σ (Option Address) :=
  if Allocator.alignment σ < l.align then return none else Allocator.alloc l.size

/-- Allocates memory of a layout and zeroes it. -/
def allocZeroed (l : Layout) : Op σ (Option Address) := do
  match ← alloc l with
  | none => return none
  | some address =>
    modify (Allocator.mapRegion (·.clear address l.size))
    return some address

/-- Releases memory of a layout; without an address there is nothing to release. -/
def dealloc (address : Option Address) (l : Layout) : Op σ Unit :=
  match address with
  | none => return
  | some address => Allocator.dealloc address l.size

/-- Moves memory of layout `old` to new memory of layout `new`, with the bytes that both have. If
there is no room for it, the old memory stays. -/
def realloc (address : Address) (old new : Layout) : Op σ (Option Address) := do
  match ← alloc new with
  | none => return none
  | some fresh =>
    modify (Allocator.mapRegion (·.move address (min old.size new.size) fresh))
    dealloc (some address) old
    return some fresh

end Layout

end FixedPool
