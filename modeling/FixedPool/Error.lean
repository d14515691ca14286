import FixedPool.Fault

/-!
Causes for which a pool, a registry or a plan cannot be built, with the text of each.
-/

namespace FixedPool

/-- Why building a pool, a registry, a layout or a plan failed. -/
inductive Error
  /-- A run-time check failed on the way. -/
  | fault (cause : Fault)
  /-- The host refused to map a region of `size` bytes. -/
  | unmapped (size : Nat)
  /-- The registry has no such slot. -/
  | invalidSlot (slot : Nat)
  /-- The bytes of a plan could not be read as text. -/
  | unreadable
  /-- The text of a plan is not a document of its format. -/
  | malformed
  /-- The document is well formed but describes no plan, for the given reason. -/
  | rejected (reason : String)
  /-- The size and alignment of a layout do not go together. -/
  | invalidLayout
deriving DecidableEq, Repr

/-- The text that describes a cause, for those that have one. -/
def Error.message? : Error → Option String
  | fault cause => some cause.message
  | unmapped size => some s!"failed to map a {size} byte memory bulk"
  | invalidSlot slot =>
    some s!"slot {slot} is out of range (the registry holds 256 slots)"
  | unreadable => some "failed to read registry configuration"
  | malformed => none
  | rejected reason => some reason
  | invalidLayout => some "invalid parameters to Layout::from_size_align"

instance : MonadLift Checked (Except Error) where
  monadLift x := x.mapError .fault

end FixedPool
