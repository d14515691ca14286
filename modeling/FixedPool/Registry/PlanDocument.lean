import FixedPool.Decimal.Shortest
import FixedPool.Registry.Plan
import FixedPool.Text.Quoted
import FixedPool.Document.Draft

/-!
Plans as TOML documents: an array `slot` with one table for each pool, which gives its `id` and its
`size`.
-/

namespace FixedPool.Plan

open Document (Node Entries)

/-- What a node is, for messages. -/
def describe : Node → String
  | .boolean b => "boolean `" ++ toString b ++ "`"
  | .integer n => "integer `" ++ toString n ++ "`"
  | .float x => "floating point `" ++ Decimal.text x ++ "`"
  | .string s => "string " ++ Text.quoted s
  | .moment | .table .. => "map"
  | .array _ | .tables _ => "sequence"

def mismatch (node : Node) (expected : String) : Error :=
  .rejected ("invalid type: " ++ describe node ++ ", expected " ++ expected)

def unknownField (key expected : String) : Error :=
  .rejected ("unknown field `" ++ key ++ "`, expected " ++ expected)

def missingField (key : String) : Error := .rejected ("missing field `" ++ key ++ "`")

def tooShort (length : Nat) : Error :=
  .rejected (s!"invalid length {length}, expected struct SlotConfig with 2 elements")

/-- A number is an integer that is not negative. -/
def number : Node → Except Error Nat
  | .integer n =>
    if 0 ≤ n then .ok n.toNat
    else .error (.rejected ("invalid value: integer `" ++ toString n ++ "`, expected usize"))
  | node => .error (mismatch node "usize")

/-- What the table of a pool has given so far. -/
structure Given where
  slot : Option Nat
  size : Option Nat

/-- What an entry of a pool's table gives. -/
def Given.step (p : Given) (entry : String × Node) : Except Error Given :=
  match entry.1 with
  | "id" => do return { p with slot := some (← number entry.2) }
  | "size" => do return { p with size := some (← number entry.2) }
  | key => .error (unknownField key "`id` or `size`")

def requestOfEntries (entries : Entries) : Except Error Request := do
  let p ← entries.foldlM Given.step ⟨none, none⟩
  match p.slot, p.size with
  | some slot, some size => return ⟨slot, size⟩
  | none, _ => throw (missingField "id")
  | _, none => throw (missingField "size")

/-- A pool as a table, or as an array of its slot and its size. -/
def request : Node → Except Error Request
  | .table _ entries => requestOfEntries entries
  | .array [] => .error (tooShort 0)
  | .array [slot] => do
    let _ ← number slot
    throw (tooShort 1)
  | .array (slot :: size :: _) => do
    let slot ← number slot
    return ⟨slot, ← number size⟩
  | .moment => .error (unknownField "$__toml_private_datetime" "`id` or `size`")
  | node => .error (mismatch node "struct SlotConfig")

def requestList : Node → Except Error (List Request)
  | .array elements => elements.mapM request
  | .tables elements => elements.mapM requestOfEntries
  | node => .error (mismatch node "a sequence")

/-- What an entry of a document gives. -/
def step (_ : Plan) (entry : String × Node) : Except Error Plan :=
  match entry.1 with
  | "slot" => do return ⟨← requestList entry.2⟩
  | key => .error (unknownField key "`slot`")

/-- The plan that a document describes. -/
def ofDocument (source : String) : Except Error Plan :=
  match Document.read? source with
  | none => .error .malformed
  | some entries => entries.foldlM step ⟨[]⟩

/-- The plan in the bytes of a document, if there are any to read. -/
def load (source : Option ByteArray) : Except Error Plan :=
  match source.bind String.fromUTF8? with
  | none => .error .unreadable
  | some text => ofDocument text

end FixedPool.Plan
