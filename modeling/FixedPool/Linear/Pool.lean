import FixedPool.Allocator
import FixedPool.Linear.Header

/-!
Allocation of cells one behind the other. A released cell below the top is only flagged; when the
top cell goes, the cursor moves back over it and over every flagged cell right below.
-/

namespace FixedPool

/-- A region filled with cells from its start up to `cursor`, each behind its header. -/
structure Linear where
  region : Region
  cursor : Nat
  /-- The offset of the header of the top cell, zero if there is none. -/
  top : Nat
  peak : Nat

namespace Linear

/-- Every address that the pool returns is a multiple of this. -/
def alignment : Nat := 8

def headerSize : Nat := 8

def leastCapacity : Nat := 16

def mostCapacity : Nat := 1 <<< 31

/-- A pool of `size` bytes, kept between 16 and `2 ^ 31` and rounded up to a multiple of 8. -/
def create (host : Host) (size : Nat) : Except Error Linear := do
  let capacity ← Word.roundUp (min (max size leastCapacity) mostCapacity) alignment
  return ⟨← Region.map host capacity, 0, 0, 0⟩

/-- The header at an offset, if its words check. -/
def header (p : Linear) (cell : Nat) : Checked (Option Header) := do
  let tagged ← p.region.loadWord cell
  return Header.decode tagged (← p.region.loadWord (← Word.add cell 4))

def storeWord (offset : Nat) (word : UInt32) : Op Linear Unit := do
  let region ← (← get).region.storeWord offset word
  modify fun p => { p with region }

def storeHeader (cell : Nat) (h : Header) : Op Linear Unit := do
  storeWord cell h.encode.1
  storeWord (← Word.add cell 4) h.encode.2

/-- Where the header of the cell at an address is, if a cell can begin at that address. -/
def cellAt (p : Linear) (address : Address) : Checked (Option Nat) := do
  if !p.region.contains address then
    return none
  let offset ← p.region.resolve address
  if p.cursor ≤ offset then
    return none
  if !(← Word.isMultiple offset alignment) then
    return none
  return if headerSize ≤ offset then some (offset - headerSize) else none

/-- Moves the cursor back over a flagged cell, and then over every flagged cell right below. A
chain visits no header twice, so one that is longer than the region never ends. -/
def retreatWithin : Nat → Nat → Header → Op Linear Unit
  | 0, _, _ => throw .endlessChain
  | steps + 1, cell, h => do
    modify fun p => { p with cursor := cell }
    if cell = 0 then
      modify fun p => { p with top := 0 }
    else
      let below := h.below.toNat
      modify fun p => { p with top := below }
      match ← (← get).header below with
      | none => throw (.corruptHeader below)
      | some next => if next.freed then retreatWithin steps below next

def retreat (cell : Nat) (h : Header) : Op Linear Unit := do
  retreatWithin ((← get).region.size + 1) cell h

/-- The bytes that a cell for `size` bytes takes with its header, if that is a word. -/
def extentOf (size : Nat) : Option Nat :=
  let past := size + headerSize + alignment - 1
  if past < Word.bound then some (past &&& Word.complement (alignment - 1)) else none

/-- Puts a cell on top of the others; without room for it, nothing is handed out. -/
def alloc (size : Nat) : Op Linear (Option Address) := do
  if size = 0 then
    return none
  match extentOf size with
  | none => return none
  | some extent =>
    let room ← Word.sub (← get).region.size (← get).cursor
    if room < extent then
      return none
    let cell := (← get).cursor
    storeHeader cell ⟨.ofNat (← get).top, false⟩
    modify fun p => { p with top := cell }
    let cursor ← Word.add cell extent
    modify fun p => { p with cursor := cursor, peak := max p.peak cursor }
    return some (← (← get).region.addressAt (← Word.add cell headerSize))

/-- Flags the cell at an address as released, and rolls back if it is the top one. -/
def free (address : Address) : Op Linear Unit := do
  match ← (← get).cellAt address with
  | none => throw .notLiveCell
  | some cell =>
    match ← (← get).header cell with
    | none => throw (.badChecksum cell)
    | some h =>
      if h.freed then
        throw (.doubleFree cell)
      let flagged : Header := { h with freed := true }
      storeHeader cell flagged
      if cell = (← get).top then
        retreat cell flagged

/-- Moves the cell at an address to a new one on top. The size of the old cell is not known: what
is copied ends with the request, or with the cells. -/
def move (address : Address) (size : Nat) : Op Linear (Option Address) := do
  let source ← (← get).region.resolve address
  let extent := (← get).cursor - source
  match ← alloc size with
  | none => return none
  | some fresh =>
    let target ← (← get).region.resolve fresh
    let length := min size extent
    (← get).region.checkMove source length target
    modify fun p => { p with region := p.region.move source length target }
    free address
    return some fresh

/-- Resizes an allocation: without an address it allocates, and size zero releases. -/
def realloc (address : Option Address) (size : Nat) : Op Linear (Option Address) :=
  match address with
  | none => alloc size
  | some address => do
    if size = 0 then
      free address
      return none
    move address size

/-- Drops every cell, reads the peak of the bytes in use and starts it afresh. -/
def reset : Op Linear Nat :=
  modifyGet fun p => (p.peak, { p with cursor := 0, top := 0, peak := 0 })

/-- The largest request that could be served now. -/
def available (p : Linear) : Checked Nat := do
  return p.region.size - (← Word.add p.cursor headerSize)

instance : Allocator Linear where
  alignment := alignment
  create := create
  region := region
  mapRegion f p := { p with region := f p.region }
  capacity p := p.region.size
  available := available
  used := cursor
  peak := peak
  reset := reset
  alloc := alloc
  dealloc address _ := free address
  free := free
  realloc := realloc

end Linear

end FixedPool
