import FixedPool.Allocator

/-!
A table of 256 slots, each of which holds at most one pool.
-/

namespace FixedPool

/-- The number of slots of a registry. -/
def slotCount : Nat := 256

/-- Pools by slot number. -/
structure Registry (σ : Type) where
  slots : Vector (Option σ) slotCount

namespace Registry

variable {σ : Type}

/-- Every slot is empty. -/
def empty : Registry σ := ⟨Vector.replicate slotCount none⟩

/-- The pool of a slot; there is none if the slot is empty or out of range. -/
def get? (r : Registry σ) (slot : Nat) : Option σ :=
  r.slots[slot]?.join

/-- Puts a pool, or none, into a slot; a slot out of range is left out. -/
def put (r : Registry σ) (slot : Nat) (pool : Option σ) : Registry σ :=
  ⟨r.slots.setIfInBounds slot pool⟩

/-- The numbers of the slots that hold a pool, in ascending order. -/
def occupied (r : Registry σ) : List Nat :=
  (List.range slotCount).filter fun slot => (r.get? slot).isSome

/-- Empties a slot. -/
def destroy (r : Registry σ) (slot : Nat) : Registry σ := r.put slot none

/-- Makes a step on the pool of a slot, if it holds one. -/
def onSlot {α : Type} (slot : Nat) (step : Op σ α) : Op (Registry σ) (Option α) := fun r =>
  match r.get? slot with
  | none => .ok none r
  | some pool =>
    match step pool with
    | .ok a pool => .ok (some a) (r.put slot (some pool))
    | .error cause pool => .error cause (r.put slot (some pool))

variable [Allocator σ]

/-- Creates the pool of a slot and answers its capacity. A pool that is there already stays. -/
def install (host : Host) (size slot : Nat) : EStateM Error (Registry σ) Nat := fun r =>
  if slot < slotCount then
    match r.get? slot with
    | some pool => .ok (Allocator.capacity pool) r
    | none =>
      match Allocator.create host size with
      | .ok pool => .ok (Allocator.capacity pool) (r.put slot (some pool))
      | .error cause => .error cause r
  else .error (.invalidSlot slot) r

/-- Creates the pool of a slot and answers its capacity, or zero if it cannot be created or if its
capacity is no number of 32 bits. -/
def installOrZero (host : Host) (size slot : Nat) : Op (Registry σ) Nat := fun r =>
  match install host size slot r with
  | .ok capacity r => .ok (if capacity < UInt32.size then capacity else 0) r
  | .error (.fault cause) r => .error cause r
  | .error _ r => .ok 0 r

end Registry

end FixedPool
