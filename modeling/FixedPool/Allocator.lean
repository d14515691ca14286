import FixedPool.Region

/-!
What every pool can do, and what follows from it: zeroed arrays, and the calls that a caller may
make one after another.
-/

namespace FixedPool

/-- A state `σ` that carves allocations out of one region. -/
class Allocator (σ : Type) where
  /-- Every address that is handed out is a multiple of this. -/
  alignment : Nat
  /-- A pool for a requested size, which the pool may raise or lower. -/
  create : Host → Nat → Except Error σ
  region : σ → Region
  /-- What callers do to the bytes of the region. -/
  mapRegion : (Region → Region) → σ → σ
  capacity : σ → Nat
  /-- The largest request that could be served now. -/
  available : σ → Checked Nat
  /-- The bytes that count as in use. -/
  used : σ → Nat
  /-- The largest number of bytes in use since the pool was made or last reset. -/
  peak : σ → Nat
  /-- Reads the peak and starts it afresh. -/
  reset : Op σ Nat
  alloc : Nat → Op σ (Option Address)
  /-- Releases an address, with the size that it was asked for as a hint. -/
  dealloc : Address → Nat → Op σ Unit
  free : Address → Op σ Unit
  /-- Resizes an allocation: without an address it allocates, and size zero releases. -/
  realloc : Option Address → Nat → Op σ (Option Address)

/-- The bytes of a pool, as they are accounted for. -/
structure Stats where
  capacity : Nat
  available : Nat
  used : Nat
  peak : Nat
deriving DecidableEq, Repr

namespace Allocator

variable {σ : Type} [Allocator σ]

def stats (s : σ) : Checked Stats := do
  return ⟨capacity s, ← available s, used s, peak s⟩

/-- Allocates `count` times `size` zero bytes, and nothing if that product is no word. -/
def calloc (count size : Nat) : Op σ (Option Address) := do
  if Word.bound ≤ count * size then
    return none
  match ← alloc (count * size) with
  | none => return none
  | some address =>
    modify (mapRegion (·.clear address (count * size)))
    return some address

end Allocator

/-- A call on a pool. -/
inductive Call
  | alloc (size : Nat)
  | calloc (count size : Nat)
  | realloc (address : Option Address) (size : Nat)
  | free (address : Address)
  | dealloc (address : Address) (hint : Nat)
  | reset
deriving DecidableEq, Repr

/-- What a call that ends without a fault answers. -/
inductive Reply
  | address (result : Option Address)
  | done
  | peak (bytes : Nat)
deriving DecidableEq, Repr

/-- The step that a call makes. -/
def Call.run {σ : Type} [Allocator σ] : Call → Op σ Reply
  | alloc size => .address <$> Allocator.alloc size
  | calloc count size => .address <$> Allocator.calloc count size
  | realloc address size => .address <$> Allocator.realloc address size
  | free address => do Allocator.free address; return .done
  | dealloc address hint => do Allocator.dealloc address hint; return .done
  | reset => .peak <$> Allocator.reset

end FixedPool
