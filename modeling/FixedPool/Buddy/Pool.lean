import FixedPool.Allocator
import FixedPool.Buddy.FreeList

/-!
Allocation by splitting and merging blocks. A request takes a free block of its tier, or splits the
nearest larger one; a released block merges with its buddy for as long as the buddy is free. Which
blocks are live is read off the marks: a marked block is live unless one of its halves is marked.
-/

namespace FixedPool

namespace Buddy

/-- Every address that the pool returns is a multiple of this. -/
def alignment : Nat := leastBlock

/-- The largest capacity is `2 ^ mostShift` bytes. -/
def mostShift : Nat := 31

/-- Takes a free block of a tier and marks it. -/
def take (tier : Nat) : Op Buddy (Option Block) := do
  match ← pop tier with
  | none => return none
  | some b =>
    mark b
    return some b

/-- Gives a block back to the tier's list, merged with its buddy while the buddy is free. -/
def coalesceAt : Nat → Nat → Op Buddy Unit
  | 0, index => do
    unmark ⟨0, index⟩
    push ⟨0, index⟩
  | tier + 1, index => do
    let b : Block := ⟨tier + 1, index⟩
    unmark b
    if ← (← get).isMarked b.buddy then
      push b
    else
      erase b.buddy
      coalesceAt tier (index / 2)

def coalesce (b : Block) : Op Buddy Unit := coalesceAt b.tier b.index

/-- Hands out a block of a tier, the left half of a larger one if the tier has no free block. -/
def carve : Nat → Op Buddy (Option Block)
  | 0 => take 0
  | tier + 1 => do
    if let some b ← take (tier + 1) then
      return some b
    match ← carve tier with
    | none => return none
    | some whole =>
      let first := whole.leftChild
      mark first
      mark first.buddy
      coalesce first.buddy
      return some first

/-- A live block is handed out: it is marked, and neither of its halves is. -/
def isLive (p : Buddy) (b : Block) : Checked Bool := do
  if !(← p.isMarked b) then
    return false
  if b.tier = (← p.tiers.deepest) then
    return true
  if ← p.isMarked b.leftChild then
    return false
  return !(← p.isMarked b.leftChild.buddy)

/-- The live block that begins at an offset, looked for among so many of the topmost tiers, from the
smallest blocks up. An offset that begins no block of a tier begins no larger block either. -/
def liveAmong (p : Buddy) (offset : Nat) : Nat → Checked (Option Block)
  | 0 => return none
  | tier + 1 => do
    match ← p.tiers.starting tier offset with
    | none => return none
    | some b =>
      if ← p.isMarked b then
        return if ← p.isLive b then some b else none
      p.liveAmong offset tier

/-- The live block that begins at an offset. -/
def liveAt (p : Buddy) (offset : Nat) : Checked (Option Block) :=
  p.liveAmong offset p.tiers.count

/-- The live block that begins at an offset, if it is of the tier that a request of `size` bytes
is served from. -/
def liveHinted (p : Buddy) (offset size : Nat) : Checked (Option Block) := do
  match ← p.tiers.fit size with
  | none => return none
  | some tier =>
    match ← p.tiers.starting tier offset with
    | none => return none
    | some b => return if ← p.isLive b then some b else none

/-- Ends the life of a block. -/
def retire (b : Block) : Op Buddy Unit := do
  let used ← Word.sub (← get).used (← (← get).tiers.width b.tier)
  modify fun p => { p with used := used }
  coalesce b

/-- Copies the first `length` bytes of a block to another address and releases the block. -/
def transfer (b : Block) (target : Address) (length : Nat) : Op Buddy Unit := do
  let source ← (← get).tiers.start b
  let target ← (← get).region.resolve target
  (← get).region.checkMove source length target
  modify fun p => { p with region := p.region.move source length target }
  retire b

/-- Hands out a block of the smallest size that holds `size` bytes, if there is one to be had. -/
def alloc (size : Nat) : Op Buddy (Option Address) := do
  match ← (← get).tiers.fit size with
  | none => return none
  | some tier =>
    match ← carve tier with
    | none => return none
    | some b =>
      let used ← Word.add (← get).used (← (← get).tiers.width tier)
      modify fun p => { p with used := used, peak := max p.peak used }
      let offset ← (← get).tiers.start b
      return some (← (← get).region.addressAt offset)

/-- Releases the live block at an address. -/
def free (address : Address) : Op Buddy Unit := do
  let offset ← (← get).region.resolve address
  match ← (← get).liveAt offset with
  | none => throw (.notLiveBlock .free)
  | some b => retire b

/-- Releases the live block at an address; `hint` is the size that it was asked for, if right. -/
def dealloc (address : Address) (hint : Nat) : Op Buddy Unit := do
  let offset ← (← get).region.resolve address
  match ← (← get).liveHinted offset hint with
  | some b => retire b
  | none =>
    match ← (← get).liveAt offset with
    | none => throw (.notLiveBlock .dealloc)
    | some b => retire b

/-- Resizes the live block at an address. A request of more than the block moves to a larger one,
a request of at most half of it moves to a smaller one if there is any, and others stay. -/
def resize (address : Address) (size : Nat) : Op Buddy (Option Address) := do
  let offset ← (← get).region.resolve address
  match ← (← get).liveAt offset with
  | none => throw (.notLiveBlock .realloc)
  | some b =>
    let extent ← (← get).tiers.width b.tier
    if extent < size then
      match ← alloc size with
      | none => return none
      | some target =>
        transfer b target extent
        return some target
    else if size ≤ extent / 2 ∧ leastBlock < extent then
      match ← alloc size with
      | none => return some address
      | some target =>
        transfer b target size
        return some target
    else
      return some address

/-- Resizes an allocation: without an address it allocates, and size zero releases. -/
def realloc (address : Option Address) (size : Nat) : Op Buddy (Option Address) :=
  match address with
  | none => alloc size
  | some address => do
    if size = 0 then
      free address
      return none
    resize address size

/-- Reads the peak of the bytes in use, and starts it afresh. -/
def reset : Op Buddy Nat :=
  modifyGet fun p => (p.peak, { p with peak := 0 })

/-- The largest request that could be served now. -/
def available (p : Buddy) : Checked Nat :=
  match p.heads.findIdx? Option.isSome with
  | none => .ok 0
  | some tier => p.tiers.width tier

/-- The size of the live block at an address, and zero if there is none. -/
def sizeAt (p : Buddy) (address : Address) : Checked Nat := do
  if !p.region.contains address then
    return 0
  match ← p.liveAt (← p.region.resolve address) with
  | none => return 0
  | some b => p.tiers.width b.tier

/-- A region with its tiers, where the root block is neither free nor live yet. -/
def unformed (region : Region) (tiers : Tiers) : Checked Buddy := do
  let marks ← Bitmap.empty tiers.count
  return ⟨region, tiers, marks, Array.replicate tiers.count none, 0, 0⟩

/-- The step of a new pool that makes the root block its only free block. -/
def form : Op Buddy Unit := do
  mark Block.root
  coalesce Block.root

/-- A pool of the smallest power of two from 16 to `2 ^ 31` bytes that holds `size` bytes. -/
def create (host : Host) (size : Nat) : Except Error Buddy := do
  let capacity ← Word.powerOfTwoWithin size 4 mostShift
  let tiers ← Tiers.of capacity
  let region ← Region.map host capacity
  match form (← unformed region tiers) with
  | .ok () pool => return pool
  | .error cause _ => throw (.fault cause)

instance : Allocator Buddy where
  alignment := alignment
  create := create
  region := region
  mapRegion f p := { p with region := f p.region }
  capacity p := p.tiers.capacity
  available := available
  used := used
  peak := peak
  reset := reset
  alloc := alloc
  dealloc := dealloc
  free := free
  realloc := realloc

end Buddy

end FixedPool
