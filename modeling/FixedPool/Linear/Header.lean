/-!
The header in front of a cell: the offset of the cell below and whether the cell was released, as
two words of 32 bits of which the second checks the first.
-/

namespace FixedPool

/-- What the header of a cell says. -/
structure Header where
  /-- The offset of the header of the cell below. -/
  below : UInt32
  freed : Bool
deriving DecidableEq, Repr

namespace Header

/-- The bit of the first word that says that the cell was released. -/
def freedBit : UInt32 := 0x80000000

/-- What tells the second word from the offset in the first. -/
def magic : UInt32 := 0x5EEDCE11

/-- The two words of a header. The check word does not depend on the freed bit. -/
def encode (h : Header) : UInt32 × UInt32 :=
  (h.below ||| (if h.freed then freedBit else 0), h.below ^^^ magic)

/-- The header that two words stand for, if the second one checks the first. -/
def decode (tagged check : UInt32) : Option Header :=
  let below := tagged &&& ~~~freedBit
  if below ^^^ magic = check then some ⟨below, tagged &&& freedBit != 0⟩ else none

end Header

end FixedPool
