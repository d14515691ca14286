import FixedPool.Allocator
import FixedPool.Proofs.Steps

/-!
The calls on a pool, as functions of its state, and the ranges of bytes that callers hold.
-/

namespace FixedPool

variable {σ : Type} [Allocator σ]

namespace Allocator

theorem calloc_apply (count size : Nat) (s : σ) :
    calloc count size s =
      if Word.bound ≤ count * size then .ok none s
      else match (alloc (count * size) : Op σ (Option Address)) s with
        | .ok none s' => .ok none s'
        | .ok (some address) s' =>
          .ok (some address) (mapRegion (·.clear address (count * size)) s')
        | .error cause s' => .error cause s' := by
  unfold calloc
  split
  · rfl
  · rw [Op.bind_apply]
    cases (alloc (count * size) : Op σ (Option Address)) s with
    | error cause s' => rfl
    | ok a s' => cases a <;> rfl

theorem stats_ok {s : σ} {n : Nat} (h : available s = .ok n) :
    stats s = .ok ⟨capacity s, n, used s, peak s⟩ := by
  rw [stats, h]
  rfl

theorem used_of_stats {s : σ} {counts : Stats} (h : stats s = .ok counts) :
    counts.used = used s := by
  cases ha : (available s : Checked Nat) with
  | error cause =>
    rw [stats, ha] at h
    cases h
  | ok n =>
    rw [stats_ok ha] at h
    cases h
    rfl

end Allocator

/-- The requested size of a call that asks for memory. -/
def Call.request? : Call → Option Nat
  | alloc size => some size
  | calloc count size => some (count * size)
  | realloc _ size => some size
  | free _ | dealloc _ _ | reset => none

/-- The address that a call is about. -/
def Call.pointer? : Call → Option Address
  | realloc (some address) _ | free address | dealloc address _ => some address
  | alloc _ | calloc _ _ | realloc none _ | reset => none

/-- A range of bytes, from its first byte on. -/
structure Span where
  start : Nat
  size : Nat
deriving DecidableEq, Repr

namespace Span

def Has (s : Span) (offset : Nat) : Prop := s.start ≤ offset ∧ offset < s.start + s.size

/-- Every byte of a range is one of another range. -/
def Inside (s t : Span) : Prop := t.start ≤ s.start ∧ s.start + s.size ≤ t.start + t.size

/-- Two ranges have no byte in common. -/
def Apart (s t : Span) : Prop := s.start + s.size ≤ t.start ∨ t.start + t.size ≤ s.start

instance (s : Span) (offset : Nat) : Decidable (s.Has offset) := inferInstanceAs (Decidable (_ ∧ _))

instance (s t : Span) : Decidable (s.Inside t) := inferInstanceAs (Decidable (_ ∧ _))

instance (s t : Span) : Decidable (s.Apart t) := inferInstanceAs (Decidable (_ ∨ _))

variable {s t u : Span} {offset : Nat}

theorem Apart.symm (h : s.Apart t) : t.Apart s := Or.symm h

theorem Apart.not_has (h : s.Apart t) (hs : s.Has offset) : ¬ t.Has offset := by
  intro ht
  obtain ⟨hs₁, hs₂⟩ := hs
  obtain ⟨ht₁, ht₂⟩ := ht
  obtain h | h := h <;> omega

theorem exists_has (hs : 0 < s.size) (ht : 0 < t.size) (h : ¬ s.Apart t) :
    ∃ o, s.Has o ∧ t.Has o := by
  simp only [Apart, not_or, Nat.not_le] at h
  simp only [Has]
  exact ⟨max s.start t.start, by omega⟩

end Span

end FixedPool
