import FixedPool.Buddy.Block
import Mathlib.Tactic.Ring

/-!
The order of the blocks of a pool: a block lies within those that it is a part of, and two blocks
either lie one within the other or have nothing in common.
-/

namespace FixedPool.Block

/-- A block is a part of another one, or that block itself. -/
def Within (a b : Block) : Prop :=
  b.tier ≤ a.tier ∧ a.index / 2 ^ (a.tier - b.tier) = b.index

instance (a b : Block) : Decidable (a.Within b) := inferInstanceAs (Decidable (_ ∧ _))

/-- Two blocks have bytes in common. -/
def Meets (a b : Block) : Prop := a.Within b ∨ b.Within a

instance (a b : Block) : Decidable (a.Meets b) := inferInstanceAs (Decidable (_ ∨ _))

/-- The block that a block other than the root is a half of. -/
def up (b : Block) : Block := ⟨b.tier - 1, b.index / 2⟩

/-- The block of a tier that a block of this or a deeper tier is a part of. -/
def ancestor (b : Block) (tier : Nat) : Block := ⟨tier, b.index / 2 ^ (b.tier - tier)⟩

variable {a b c d : Block}

/-! ### Within -/

theorem Within.refl (b : Block) : b.Within b := by
  refine ⟨Nat.le_refl _, ?_⟩
  rw [Nat.sub_self, Nat.pow_zero, Nat.div_one]

theorem within_iff (n : Nat) (h : a.tier = b.tier + n) : a.Within b ↔ a.index / 2 ^ n = b.index := by
  have hn : a.tier - b.tier = n := by omega
  rw [Within, hn]
  exact and_iff_right (by omega)

theorem Within.exists (h : a.Within b) :
    ∃ n, a.tier = b.tier + n ∧ a.index / 2 ^ n = b.index := by
  obtain ⟨ht, hi⟩ := h
  exact ⟨a.tier - b.tier, by omega, hi⟩

theorem Within.trans (h : a.Within b) (h' : b.Within c) : a.Within c := by
  obtain ⟨n, hn, hi⟩ := h.exists
  obtain ⟨m, hm, hj⟩ := h'.exists
  rw [within_iff (n + m) (by omega), Nat.pow_add, ← Nat.div_div_eq_div_mul, hi, hj]

theorem Within.eq_of_tier (h : a.Within b) (ht : a.tier = b.tier) : a = b := by
  have hi := (within_iff 0 ht).1 h
  rw [Nat.pow_zero, Nat.div_one] at hi
  cases a
  cases b
  cases ht
  cases hi
  rfl

theorem Within.antisymm (h : a.Within b) (h' : b.Within a) : a = b :=
  h.eq_of_tier (Nat.le_antisymm h'.1 h.1)

theorem Within.chain (h : a.Within b) (h' : a.Within c) (ht : b.tier ≤ c.tier) : c.Within b := by
  obtain ⟨n, hn, hi⟩ := h.exists
  obtain ⟨m, hm, hj⟩ := h'.exists
  obtain ⟨k, hk⟩ := Nat.exists_eq_add_of_le ht
  have hs : n = m + k := by omega
  rw [within_iff k hk, ← hj, Nat.div_div_eq_div_mul, ← Nat.pow_add, ← hs, hi]

/-! ### Halves -/

@[simp] theorem tier_buddy (b : Block) : b.buddy.tier = b.tier := rfl

theorem index_buddy (b : Block) :
    b.buddy.index = if b.index % 2 = 0 then b.index + 1 else b.index - 1 := rfl

@[simp] theorem up_buddy (b : Block) : b.buddy.up = b.up := by
  have hi : b.buddy.index / 2 = b.index / 2 := by
    rw [index_buddy]
    split <;> omega
  rw [up, hi]
  rfl

theorem buddy_ne (b : Block) : b.buddy ≠ b := by
  intro h
  have hi := congrArg Block.index h
  rw [index_buddy] at hi
  split at hi <;> omega

@[simp] theorem buddy_buddy (b : Block) : b.buddy.buddy = b := by
  have hi : b.buddy.buddy.index = b.index := by
    rw [index_buddy, index_buddy]
    split <;> split <;> omega
  change Block.mk b.tier b.buddy.buddy.index = b
  rw [hi]

@[simp] theorem up_leftChild (b : Block) : b.leftChild.up = b := by
  have hi : 2 * b.index / 2 = b.index := by omega
  change Block.mk b.tier (2 * b.index / 2) = b
  rw [hi]

theorem leftChild_within (b : Block) : b.leftChild.Within b :=
  (within_iff 1 rfl).2 (congrArg Block.index (up_leftChild b))

theorem rightChild_within (b : Block) : b.leftChild.buddy.Within b := by
  apply (within_iff 1 rfl).2
  have hu : b.leftChild.buddy.up = b := (up_buddy _).trans (up_leftChild b)
  exact congrArg Block.index hu

theorem index_rightChild (b : Block) : b.leftChild.buddy.index = 2 * b.index + 1 :=
  if_pos (Nat.mul_mod_right 2 b.index)

theorem tier_up (h : 0 < b.tier) : b.tier = b.up.tier + 1 := (Nat.sub_add_cancel h).symm

theorem within_up (h : 0 < b.tier) : b.Within b.up := (within_iff 1 (tier_up h)).2 rfl

theorem not_up_within (h : 0 < b.tier) : ¬ b.up.Within b := by
  intro hw
  have := hw.1
  have := tier_up h
  omega

/-- A block that is a proper part of another lies in one of its halves, and so does the half. -/
theorem Within.up (h : a.Within b) (hn : a ≠ b) : 0 < a.tier ∧ a.up.Within b := by
  obtain ⟨n, hn', hi⟩ := h.exists
  cases n with
  | zero => exact absurd (h.eq_of_tier hn') hn
  | succ n =>
    have ht : 0 < a.tier := by omega
    have hu := tier_up ht
    refine ⟨ht, (within_iff n (by omega)).2 ?_⟩
    rw [← hi, Nat.pow_succ, Nat.mul_comm, ← Nat.div_div_eq_div_mul]
    rfl

theorem eq_or_eq_buddy (h : 0 < a.tier) (h' : 0 < b.tier) (hu : a.up = b.up) :
    a = b ∨ a = b.buddy := by
  obtain ⟨t, i⟩ := a
  obtain ⟨s, j⟩ := b
  have ht : t - 1 = s - 1 := congrArg Block.tier hu
  have hi : i / 2 = j / 2 := congrArg Block.index hu
  have ht' : t = s := by
    change 0 < t at h
    change 0 < s at h'
    omega
  subst ht'
  have hb : (⟨t, j⟩ : Block).buddy = ⟨t, if j % 2 = 0 then j + 1 else j - 1⟩ := rfl
  rw [hb, mk.injEq, mk.injEq]
  split <;> omega

theorem Within.halves (h : a.Within b.up) (hb : 0 < b.tier) :
    a = b.up ∨ a.Within b ∨ a.Within b.buddy := by
  by_cases he : a = b.up
  · exact .inl he
  right
  -- The part of the tier of `b` that `a` lies in has the same parent as `b`.
  obtain ⟨n, hn, hi⟩ := h.exists
  cases n with
  | zero => exact absurd (h.eq_of_tier hn) he
  | succ n =>
    have ht := tier_up hb
    let c : Block := ⟨b.tier, a.index / 2 ^ n⟩
    have hac : a.Within c := (within_iff n (by
      change a.tier = b.tier + n
      omega)).2 rfl
    have hc : c.up = b.up := by
      have hi' : a.index / 2 ^ n / 2 = b.up.index := by
        rw [Nat.div_div_eq_div_mul, ← Nat.pow_succ, hi]
      change Block.mk (b.tier - 1) (a.index / 2 ^ n / 2) = _
      rw [hi']
      rfl
    obtain he | he := eq_or_eq_buddy (a := c) hb hb hc
    · exact .inl (he ▸ hac)
    · exact .inr (he ▸ hac)

theorem not_within_buddy (b : Block) : ¬ b.Within b.buddy := by
  intro h
  exact buddy_ne b (h.eq_of_tier rfl).symm

/-! ### Ancestors -/

section ancestor

variable {k : Nat}

theorem within_ancestor (h : k ≤ b.tier) : b.Within (b.ancestor k) := ⟨h, rfl⟩

theorem Within.eq_ancestor (h : a.Within b) : b = a.ancestor b.tier := by
  rw [ancestor, h.2]

@[simp] theorem ancestor_self (b : Block) : b.ancestor b.tier = b := (Within.refl b).eq_ancestor.symm

theorem ancestor_up (h : k < b.tier) : b.up.ancestor k = b.ancestor k := by
  have hup : b.Within b.up := within_up (Nat.zero_lt_of_lt h)
  exact (hup.trans (within_ancestor (Nat.le_sub_one_of_lt h))).eq_ancestor

theorem ancestor_leftChild (h : k ≤ b.tier) : b.leftChild.ancestor k = b.ancestor k := by
  have hup : b.leftChild.up.ancestor k = b.leftChild.ancestor k := ancestor_up (Nat.lt_succ_of_le h)
  rw [← hup, up_leftChild]

end ancestor

/-! ### Meets -/

theorem Meets.refl (b : Block) : b.Meets b := .inl (.refl b)

theorem Meets.symm (h : a.Meets b) : b.Meets a := Or.symm h

theorem meets_comm : a.Meets b ↔ b.Meets a := Or.comm

theorem Meets.mono (h : a.Meets c) (hw : a.Within b) : b.Meets c := by
  obtain h | h := h
  · obtain ht | ht := Nat.le_total b.tier c.tier
    · exact .inr (hw.chain h ht)
    · exact .inl (h.chain hw ht)
  · exact .inr (h.trans hw)

theorem not_meets_of_tier (h : a.tier = b.tier) (hn : a ≠ b) : ¬ a.Meets b := by
  rintro (hw | hw)
  · exact hn (hw.eq_of_tier h)
  · exact hn (hw.eq_of_tier h.symm).symm

theorem not_meets_buddy (b : Block) : ¬ b.Meets b.buddy :=
  not_meets_of_tier rfl (buddy_ne b).symm

theorem meets_up (h : 0 < b.tier) : b.up.Meets c ↔ b.Meets c ∨ b.buddy.Meets c := by
  have hu := within_up h
  have hu' : b.buddy.Within b.up := up_buddy b ▸ within_up (b := b.buddy) h
  constructor
  · rintro (hw | hw)
    · exact .inl (.inl (hu.trans hw))
    · obtain rfl | hw | hw := hw.halves h
      · exact .inl (.inl hu)
      · exact .inl (.inr hw)
      · exact .inr (.inr hw)
  · rintro (hm | hm)
    · exact hm.mono hu
    · exact hm.mono hu'

end FixedPool.Block
