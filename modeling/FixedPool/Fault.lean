/-!
Run-time checks that can fail, and the two kinds of computation that end in such a failure: one
without state, and one over a state, which keeps whatever it changed before the failing check.
-/

namespace FixedPool

/-- The call that was given an address at which no live block starts. -/
inductive Attempt
  | free
  | dealloc
  | realloc
deriving DecidableEq, Repr

def Attempt.name : Attempt → String
  | free => "free"
  | dealloc => "dealloc"
  | realloc => "realloc"

/-- A failed run-time check. -/
inductive Fault
  | addOverflow
  | subOverflow
  | mulOverflow
  | shiftOverflow
  /-- An index at or past the end of a table of `size` entries. -/
  | indexOutside (size index : Nat)
  /-- A byte range that begins past the end of a region. -/
  | rangeStart (start size : Nat)
  /-- A byte range that begins in a region and ends past it. -/
  | rangeEnd (stop size : Nat)
  /-- A copy whose destination does not fit in the region. -/
  | copyTarget
  | emptyRegion
  | offsetOutside (offset : Nat)
  | foreignAddress
  /-- A capacity that is no power of two, or below the smallest block. -/
  | capacityShape
  | noSuchBlock (tier index : Nat)
  | rootParent
  /-- The first block of a free list is not the one its list head names. -/
  | headMismatch (head : Option Nat) (index : Nat)
  | notLiveBlock (attempt : Attempt)
  | notLiveCell
  | badChecksum (cell : Nat)
  | doubleFree (cell : Nat)
  | corruptHeader (cell : Nat)
  /-- Rolling back over a chain of headers that never ends. -/
  | endlessChain
deriving DecidableEq, Repr

/-- The number written where a free list has no further block. -/
def noBlock : Nat := UInt32.size - 1

/-- The text of a failed check. An address is not shown: it stands as `<ptr>`. -/
def Fault.message : Fault → String
  | addOverflow => "attempt to add with overflow"
  | subOverflow => "attempt to subtract with overflow"
  | mulOverflow => "attempt to multiply with overflow"
  | shiftOverflow => "attempt to shift left with overflow"
  | indexOutside size index =>
    s!"index out of bounds: the len is {size} but the index is {index}"
  | rangeStart start size =>
    s!"range start index {start} out of range for slice of length {size}"
  | rangeEnd stop size => s!"range end index {stop} out of range for slice of length {size}"
  | copyTarget => "dest is out of bounds"
  | emptyRegion => "empty bulk"
  | offsetOutside offset => s!"offset {offset} outside of bulk"
  | foreignAddress => "pointer <ptr> is not managed by this bulk"
  | capacityShape =>
    "assertion failed: capacity.is_power_of_two() && capacity >= MIN_BLOCK_SIZE"
  | noSuchBlock tier index => s!"block ({tier}, {index}) does not exist"
  | rootParent => "the root block has no parent"
  | headMismatch head index =>
    "assertion `left == right` failed: free list head corrupted\n  left: "
      ++ toString (head.getD noBlock) ++ "\n right: " ++ toString index
  | notLiveBlock attempt => attempt.name ++ " of <ptr>, which is not a live block"
  | notLiveCell => "free of <ptr>, which is not a live cell"
  | badChecksum cell => s!"checksum mismatch in cell header at offset {cell}"
  | doubleFree cell => s!"double free of cell at offset {cell}"
  | corruptHeader cell => s!"corrupted cell header at offset {cell}"
  | endlessChain => "roll back over an endless chain of cells"

/-- A computation without state that a failed check can stop. -/
abbrev Checked := Except Fault

/-- A step over a state `σ`. If a check fails, the state is kept as it was at that moment. -/
abbrev Op (σ : Type) := EStateM Fault σ

instance {σ : Type} : MonadLift Checked (Op σ) where
  monadLift x := fun s =>
    match x with
    | .ok a => .ok a s
    | .error cause => .error cause s

end FixedPool
