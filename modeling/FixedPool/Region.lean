import FixedPool.Error
import FixedPool.Word

/-!
The one contiguous region of bytes that a pool carves its allocations from, and the addresses that
callers hold. Reading and writing are total functions on the bytes; what may fail is checked apart,
before the bytes change.
-/

namespace FixedPool

/-- An address, as its distance from the first byte of a region. A distance that is not below the
region's size lies outside of it. Regions begin at a page, so an address and its distance are
multiples of the same powers of two up to the size of a page. -/
abbrev Address := Nat

/-- The host that provides regions, by the lengths that it grants. -/
structure Host where
  grants : Nat → Bool

/-- A contiguous run of bytes. -/
structure Region where
  bytes : ByteArray

namespace Region

def size (r : Region) : Nat := r.bytes.size

/-- `n` bytes that are all zero. -/
def zeros (n : Nat) : ByteArray := ⟨Array.replicate n 0⟩

/-- Asks the host for a region of `size` zero bytes. -/
def map (host : Host) (size : Nat) : Except Error Region :=
  if size = 0 then .error (.fault .emptyRegion)
  else if host.grants size then .ok ⟨zeros size⟩
  else .error (.unmapped size)

/-- The byte at an offset, zero outside of the region. -/
def byte (r : Region) (offset : Nat) : UInt8 :=
  if h : offset < r.bytes.size then r.bytes[offset] else 0

/-- Changes one byte, and nothing if the offset is outside of the region. -/
def setByte (r : Region) (offset : Nat) (value : UInt8) : Region :=
  if h : offset < r.bytes.size then ⟨r.bytes.set offset value⟩ else r

/-- The 32-bit word at an offset, lowest byte first. -/
def word (r : Region) (offset : Nat) : UInt32 :=
  .ofNat ((r.byte offset).toNat + 256 * ((r.byte (offset + 1)).toNat
    + 256 * ((r.byte (offset + 2)).toNat + 256 * (r.byte (offset + 3)).toNat)))

/-- Changes the 32-bit word at an offset, lowest byte first. -/
def setWord (r : Region) (offset : Nat) (value : UInt32) : Region :=
  let v := value.toNat
  (((r.setByte offset (.ofNat v)).setByte (offset + 1) (.ofNat (v / 256))).setByte
    (offset + 2) (.ofNat (v / 256 / 256))).setByte (offset + 3) (.ofNat (v / 256 / 256 / 256))

/-- The bytes of a range, cut off at the end of the region. -/
def slice (r : Region) (offset length : Nat) : ByteArray :=
  r.bytes.extract offset (offset + length)

/-- Puts bytes at an offset, and changes nothing if they do not fit there. -/
def overwrite (r : Region) (offset : Nat) (source : ByteArray) : Region :=
  if offset + source.size ≤ r.bytes.size then
    ⟨source.copySlice 0 r.bytes offset source.size⟩
  else r

/-- Zeroes a range. -/
def clear (r : Region) (offset length : Nat) : Region :=
  r.overwrite offset (zeros length)

/-- Copies a range to another place in the region; the two may overlap. -/
def move (r : Region) (source length target : Nat) : Region :=
  r.overwrite target (r.slice source length)

/-- A range must begin and end in the region. -/
def checkRange (r : Region) (start stop : Nat) : Checked Unit :=
  if r.size < start then .error (.rangeStart start r.size)
  else if r.size < stop then .error (.rangeEnd stop r.size)
  else .ok ()

/-- The four bytes of a word must lie in the region. -/
def checkWord (r : Region) (offset : Nat) : Checked Unit := do
  r.checkRange offset (← Word.add offset 4)

/-- The source of a copy, and then its destination, must lie in the region. -/
def checkMove (r : Region) (source length target : Nat) : Checked Unit := do
  r.checkRange source (← Word.add source length)
  if target + length ≤ r.size then .ok () else .error .copyTarget

def loadWord (r : Region) (offset : Nat) : Checked UInt32 := do
  r.checkWord offset
  return r.word offset

/-- Changes the 32-bit word at an offset. It is inlined so that the bytes change in place. -/
@[inline]
def storeWord (r : Region) (offset : Nat) (value : UInt32) : Checked Region := do
  r.checkWord offset
  return r.setWord offset value

/-- Whether an address is that of a byte of the region. -/
def contains (r : Region) (address : Address) : Bool := address < r.size

/-- The address of the byte at an offset, which must be in the region. -/
def addressAt (r : Region) (offset : Nat) : Checked Address :=
  if offset < r.size then .ok offset else .error (.offsetOutside offset)

/-- The offset of the byte that an address names, which must be in the region. -/
def resolve (r : Region) (address : Address) : Checked Nat :=
  if r.contains address then .ok address else .error .foreignAddress

end Region

end FixedPool
