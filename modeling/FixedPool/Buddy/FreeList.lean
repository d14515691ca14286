import FixedPool.Buddy.Bitmap
import FixedPool.Region

/-!
The state of a buddy pool and the lists of its free blocks. Each tier has one list, whose links
stand in the free blocks themselves: the last eight bytes of a free block name the blocks before and
behind it.
-/

namespace FixedPool

/-- A region split into blocks of power-of-two sizes. A block is marked while it is handed out or
split; `heads` names the first free block of each tier. -/
structure Buddy where
  region : Region
  tiers : Tiers
  marks : Bitmap
  heads : Array (Option Nat)
  used : Nat
  peak : Nat

namespace Buddy

def isMarked (p : Buddy) (b : Block) : Checked Bool := p.marks.isMarked b

def mark (b : Block) : Op Buddy Unit := do
  let bit ← (← get).marks.bitOf b
  modify fun p => { p with marks := p.marks.setBit bit }

def unmark (b : Block) : Op Buddy Unit := do
  let bit ← (← get).marks.bitOf b
  modify fun p => { p with marks := p.marks.clearBit bit }

/-- The first free block of a tier. -/
def head (p : Buddy) (tier : Nat) : Checked (Option Nat) :=
  if h : tier < p.heads.size then .ok p.heads[tier]
  else .error (.indexOutside p.heads.size tier)

def setHead (tier : Nat) (index : Option Nat) : Op Buddy Unit := do
  let _ ← (← get).head tier
  modify fun p => { p with heads := p.heads.setIfInBounds tier index }

/-- A link as a word of the region. -/
def encodeLink (link : Option Nat) : UInt32 := .ofNat (link.getD noBlock)

/-- A word of the region as a link. -/
def decodeLink (word : UInt32) : Option Nat :=
  if word.toNat = noBlock then none else some word.toNat

/-- Where a free block keeps its links. -/
def linksOffset (p : Buddy) (b : Block) : Checked Nat := do
  let stop ← Word.add (← p.tiers.start b) (← p.tiers.width b.tier)
  Word.sub stop 8

/-- The free blocks before and behind a free block. -/
def links (p : Buddy) (b : Block) : Checked (Option Nat × Option Nat) := do
  let offset ← p.linksOffset b
  let before ← p.region.loadWord offset
  let behind ← p.region.loadWord (← Word.add offset 4)
  return (decodeLink before, decodeLink behind)

def storeLink (offset : Nat) (link : Option Nat) : Op Buddy Unit := do
  let region ← (← get).region.storeWord offset (encodeLink link)
  modify fun p => { p with region }

def setBefore (b : Block) (link : Option Nat) : Op Buddy Unit := do
  let offset ← (← get).linksOffset b
  storeLink offset link

def setBehind (b : Block) (link : Option Nat) : Op Buddy Unit := do
  let offset ← (← get).linksOffset b
  storeLink (← Word.add offset 4) link

/-- Puts a block in front of the free list of its tier. -/
def push (b : Block) : Op Buddy Unit := do
  let first ← (← get).head b.tier
  setBefore b none
  setBehind b first
  if let some index := first then
    setBefore (← Block.of b.tier index) (some b.index)
  setHead b.tier (some b.index)

/-- Takes a block out of the free list of its tier, wherever it stands there. -/
def erase (b : Block) : Op Buddy Unit := do
  let (before, behind) ← (← get).links b
  match before with
  | none =>
    let first ← (← get).head b.tier
    if first ≠ some b.index then
      throw (.headMismatch first b.index)
    setHead b.tier behind
  | some index => setBehind (← Block.of b.tier index) behind
  if let some index := behind then
    setBefore (← Block.of b.tier index) before

/-- Takes the first block out of the free list of a tier. -/
def pop (tier : Nat) : Op Buddy (Option Block) := do
  match ← (← get).head tier with
  | none => return none
  | some index =>
    let b ← Block.of tier index
    erase b
    return some b

end Buddy

end FixedPool
