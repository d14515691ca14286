import FixedPool.Proofs.Allocator
import FixedPool.Proofs.Buddy.Tree
import FixedPool.Proofs.Word
import Mathlib.Tactic.Ring

/-!
The bytes of a block: blocks that lie one within the other have ranges that do, and other blocks have
ranges that are apart. The checked computations on tiers end in those ranges.
-/

namespace FixedPool

/-- The size of the smallest block that holds `size` bytes. -/
def sizeClass (size : Nat) : Nat := Word.nextPowerOfTwo (max size leastBlock)

namespace Tiers

/-- The size of the blocks of a tier. -/
def extent (t : Tiers) (tier : Nat) : Nat := leastBlock * 2 ^ (t.count - 1 - tier)

/-- The first byte of a block. -/
def offset (t : Tiers) (b : Block) : Nat := b.index * t.extent b.tier

/-- The bytes of a block. -/
def span (t : Tiers) (b : Block) : Span := ⟨t.offset b, t.extent b.tier⟩

/-- The block is one of these tiers. -/
def Holds (t : Tiers) (b : Block) : Prop := b.tier < t.count ∧ b.index < 2 ^ b.tier

instance (t : Tiers) (b : Block) : Decidable (t.Holds b) := inferInstanceAs (Decidable (_ ∧ _))

/-- The tiers go from the whole capacity down to the smallest block. -/
structure WellFormed (t : Tiers) : Prop where
  count_pos : 0 < t.count
  count_le : t.count ≤ 60
  capacity_eq : t.capacity = t.extent 0

variable {t : Tiers} {a b : Block} {tier n o size k : Nat}

/-! ### Sizes -/

theorem extent_pos (t : Tiers) (tier : Nat) : 0 < t.extent tier :=
  Nat.mul_pos (by decide) (Nat.two_pow_pos _)

theorem extent_eq_two_pow (t : Tiers) (tier : Nat) :
    t.extent tier = 2 ^ (4 + (t.count - 1 - tier)) := by
  rw [Nat.pow_add]
  rfl

theorem extent_add (h : tier + n < t.count) : t.extent tier = t.extent (tier + n) * 2 ^ n := by
  have hs : t.count - 1 - tier = (t.count - 1 - (tier + n)) + n := by omega
  rw [extent, extent, hs, Nat.pow_add, Nat.mul_assoc]

theorem extent_le (h : tier ≤ n) : t.extent n ≤ t.extent tier :=
  Nat.mul_le_mul_left _ (Nat.pow_le_pow_right (by decide) (by omega))

theorem extent_inj {s : Nat} (h : tier < t.count) (hs : s < t.count)
    (he : t.extent tier = t.extent s) : tier = s := by
  rw [extent_eq_two_pow, extent_eq_two_pow] at he
  have := Nat.pow_right_injective (Nat.le_refl 2) he
  omega

theorem tier_le_of_extent {s : Nat} (h : tier < t.count) (hs : s < t.count)
    (he : t.extent s ≤ t.extent tier) : tier ≤ s := by
  rw [extent_eq_two_pow, extent_eq_two_pow, Nat.pow_le_pow_iff_right (by decide)] at he
  omega

theorem leastBlock_dvd_extent (t : Tiers) (tier : Nat) : leastBlock ∣ t.extent tier :=
  Nat.dvd_mul_right _ _

theorem leastBlock_le_extent (t : Tiers) (tier : Nat) : leastBlock ≤ t.extent tier :=
  Nat.le_of_dvd (extent_pos t tier) (leastBlock_dvd_extent t tier)

/-! ### Bytes of blocks -/

theorem has_span : (t.span b).Has o ↔ o / t.extent b.tier = b.index := by
  rw [Nat.div_eq_iff (extent_pos t b.tier)]
  have := extent_pos t b.tier
  have hs : (t.span b).start = b.index * t.extent b.tier := rfl
  have hn : (t.span b).size = t.extent b.tier := rfl
  rw [Span.Has, hs, hn]
  omega

theorem has_offset (t : Tiers) (b : Block) : (t.span b).Has (t.offset b) :=
  ⟨Nat.le_refl _, Nat.lt_add_of_pos_right (extent_pos t b.tier)⟩

/-- A byte of two blocks is a byte of all that they have in common. -/
theorem within_of_has (hb : a.tier < t.count) (ht : b.tier ≤ a.tier) (h : (t.span a).Has o)
    (h' : (t.span b).Has o) : a.Within b := by
  obtain ⟨n, hn⟩ := Nat.exists_eq_add_of_le ht
  rw [has_span] at h h'
  rw [Block.within_iff n hn, ← h, ← h', Nat.div_div_eq_div_mul, hn, ← extent_add (by omega)]

theorem has_of_within (h : a.Within b) (ha : a.tier < t.count)
    (ho : (t.span a).Has o) : (t.span b).Has o := by
  obtain ⟨n, hn, hi⟩ := h.exists
  rw [has_span] at ho ⊢
  have he : t.extent b.tier = t.extent (b.tier + n) * 2 ^ n := extent_add (by omega)
  rw [he, ← hn, ← Nat.div_div_eq_div_mul, ho, hi]

theorem meets_of_has (ha : a.tier < t.count) (hb : b.tier < t.count) (h : (t.span a).Has o)
    (h' : (t.span b).Has o) : a.Meets b := by
  obtain ht | ht := Nat.le_total b.tier a.tier
  · exact .inl (within_of_has ha ht h h')
  · exact .inr (within_of_has hb ht h' h)

theorem not_apart_iff (ha : a.tier < t.count) (hb : b.tier < t.count) :
    ¬ (t.span a).Apart (t.span b) ↔ a.Meets b := by
  constructor
  · intro h
    obtain ⟨o, hoa, hob⟩ := Span.exists_has (extent_pos t a.tier) (extent_pos t b.tier) h
    exact meets_of_has ha hb hoa hob
  · rintro (hw | hw) h
    · exact h.not_has (has_offset t a) (has_of_within hw ha (has_offset t a))
    · exact h.symm.not_has (has_offset t b) (has_of_within hw hb (has_offset t b))

theorem apart_of_not_meets (ha : a.tier < t.count) (hb : b.tier < t.count) (h : ¬ a.Meets b) :
    (t.span a).Apart (t.span b) := by
  by_contra hn
  exact h ((not_apart_iff ha hb).1 hn)

theorem inside_iff (ha : a.tier < t.count) (hb : b.tier < t.count) :
    (t.span a).Inside (t.span b) ↔ a.Within b := by
  constructor
  · intro h
    have he : t.extent a.tier ≤ t.extent b.tier := by
      obtain ⟨h₁, h₂⟩ := h
      change t.offset a + t.extent a.tier ≤ t.offset b + t.extent b.tier at h₂
      change t.offset b ≤ t.offset a at h₁
      omega
    have hp := extent_pos t a.tier
    obtain ⟨h₁, h₂⟩ := h
    have ho : (t.span b).Has (t.offset a) :=
      ⟨h₁, Nat.lt_of_lt_of_le (Nat.lt_add_of_pos_right hp) h₂⟩
    exact within_of_has ha (tier_le_of_extent hb ha he) (has_offset t a) ho
  · intro h
    have hp := extent_pos t a.tier
    have h₁ := has_of_within h ha (has_offset t a)
    have h₂ := has_of_within h ha (o := t.offset a + t.extent a.tier - 1) (by
      refine ⟨?_, ?_⟩
      · change t.offset a ≤ _
        omega
      · change _ < t.offset a + t.extent a.tier
        omega)
    refine ⟨h₁.1, ?_⟩
    have := h₂.2
    change t.offset a + t.extent a.tier ≤ _
    omega

theorem span_inj (ha : a.tier < t.count) (hb : b.tier < t.count) (h : t.span a = t.span b) :
    a = b := by
  have ht : a.tier = b.tier := extent_inj ha hb (congrArg Span.size h)
  have hw : a.Within b := within_of_has ha (Nat.le_of_eq ht.symm) (has_offset t a)
    (h ▸ has_offset t a)
  exact hw.eq_of_tier ht

theorem capacity_eq_mul (hw : t.WellFormed) (h : tier < t.count) :
    t.capacity = 2 ^ tier * t.extent tier := by
  have he : t.extent 0 = t.extent (0 + tier) * 2 ^ tier := extent_add (by omega)
  rw [hw.capacity_eq, he, Nat.zero_add, Nat.mul_comm]

theorem capacity_lt (hw : t.WellFormed) : t.capacity < Word.bound := by
  have := hw.count_le
  rw [hw.capacity_eq, extent_eq_two_pow, Word.bound_eq]
  exact Nat.pow_lt_pow_right (by decide) (by omega)

theorem WellFormed.eq_of_capacity {t' : Tiers} (h : t.WellFormed) (h' : t'.WellFormed)
    (hc : t.capacity = t'.capacity) : t = t' := by
  have he := hc
  rw [h.capacity_eq, h'.capacity_eq, extent_eq_two_pow, extent_eq_two_pow] at he
  have hk := Nat.pow_right_injective (Nat.le_refl 2) he
  have hn := h.count_pos
  have hn' := h'.count_pos
  obtain ⟨capacity, count⟩ := t
  obtain ⟨capacity', count'⟩ := t'
  have hcount : count = count' := by
    dsimp only at hk hn hn'
    omega
  rw [hcount]
  exact congrArg (Tiers.mk · count') hc

theorem extent_le_capacity (hw : t.WellFormed) (tier : Nat) : t.extent tier ≤ t.capacity := by
  rw [hw.capacity_eq]
  exact extent_le (Nat.zero_le tier)

theorem Holds.end_le (hb : t.Holds b) (hw : t.WellFormed) :
    t.offset b + t.extent b.tier ≤ t.capacity := by
  obtain ⟨ht, hi⟩ := hb
  rw [capacity_eq_mul hw ht, offset, ← Nat.succ_mul]
  exact Nat.mul_le_mul_right _ hi

theorem Holds.offset_lt (hb : t.Holds b) (hw : t.WellFormed) : t.offset b < t.capacity :=
  Nat.lt_of_lt_of_le (Nat.lt_add_of_pos_right (extent_pos t b.tier)) (hb.end_le hw)

theorem exists_holds_has (hw : t.WellFormed) (h : tier < t.count) (ho : o < t.capacity) :
    t.Holds ⟨tier, o / t.extent tier⟩ ∧ (t.span ⟨tier, o / t.extent tier⟩).Has o := by
  rw [has_span]
  refine ⟨⟨h, ?_⟩, rfl⟩
  rw [capacity_eq_mul hw h] at ho
  exact (Nat.div_lt_iff_lt_mul (extent_pos t tier)).2 ho

theorem Holds.within (hb : t.Holds b) (hw : b.Within a) : t.Holds a := by
  obtain ⟨ht, hi⟩ := hb
  obtain ⟨n, hn, he⟩ := hw.exists
  refine ⟨by omega, ?_⟩
  rw [← he, Nat.div_lt_iff_lt_mul (Nat.two_pow_pos n), ← Nat.pow_add, ← hn]
  exact hi

theorem Holds.up (hb : t.Holds b) (h : 0 < b.tier) : t.Holds b.up := hb.within (Block.within_up h)

theorem Holds.buddy (hb : t.Holds b) (h : 0 < b.tier) : t.Holds b.buddy := by
  obtain ⟨ht, hi⟩ := hb
  refine ⟨ht, ?_⟩
  have hp : 2 ^ b.tier = 2 * 2 ^ (b.tier - 1) := by
    rw [← Nat.pow_succ', Nat.succ_eq_add_one, Nat.sub_add_cancel h]
  rw [Block.index_buddy, Block.tier_buddy]
  split <;> omega

theorem Holds.leftChild (hb : t.Holds b) (h : b.tier + 1 < t.count) : t.Holds b.leftChild := by
  obtain ⟨ht, hi⟩ := hb
  refine ⟨h, ?_⟩
  change 2 * b.index < 2 ^ (b.tier + 1)
  rw [Nat.pow_succ]
  omega

theorem offset_leftChild (h : b.tier + 1 < t.count) : t.offset b.leftChild = t.offset b := by
  have he : t.extent b.tier = t.extent (b.tier + 1) * 2 ^ 1 := extent_add h
  change 2 * b.index * t.extent (b.tier + 1) = b.index * t.extent b.tier
  rw [he]
  ring

theorem holds_root (hw : t.WellFormed) : t.Holds Block.root := ⟨hw.count_pos, Nat.one_pos⟩

/-! ### Checked computations -/

theorem deepest_ok (hw : t.WellFormed) : t.deepest = .ok (t.count - 1) := Word.sub_ok hw.count_pos

theorem width_ok (hw : t.WellFormed) (h : tier < t.count) : t.width tier = .ok (t.extent tier) := by
  have hc := capacity_lt hw
  have he := extent_le_capacity hw tier
  have hn := hw.count_le
  rw [width, deepest_ok hw, Checked.ok_bind, Word.sub_ok (by omega), Checked.ok_bind,
    Word.shiftLeft_ok (by omega) (Nat.lt_of_le_of_lt he hc)]
  rfl

theorem start_ok (hw : t.WellFormed) (hb : t.Holds b) : t.start b = .ok (t.offset b) := by
  rw [start, width_ok hw hb.1, Checked.ok_bind,
    Word.mul_ok (Nat.lt_trans (hb.offset_lt hw) (capacity_lt hw))]
  rfl

/-- A block of a tier begins at the multiples of its size, as long as indices keep within 32 bits. -/
theorem starting_ok (hw : t.WellFormed) (h : tier < t.count) (h' : tier ≤ 32) :
    t.starting tier o = .ok
      (if t.extent tier ∣ o ∧ o < t.capacity then some ⟨tier, o / t.extent tier⟩ else none) := by
  have hm : Word.isMultiple o (t.extent tier) = .ok (decide (t.extent tier ∣ o)) := by
    rw [extent_eq_two_pow]
    exact Word.isMultiple_two_pow ..
  rw [starting, width_ok hw h, Checked.ok_bind, hm, Checked.ok_bind]
  simp only [decide_eq_true_eq]
  by_cases hd : t.extent tier ∣ o ∧ o < t.capacity
  · obtain ⟨hd, hc⟩ := id hd
    have hi : o / t.extent tier < UInt32.size := Nat.lt_of_lt_of_le (exists_holds_has hw h hc).1.2
      (Nat.pow_le_pow_right (n := 2) (by decide) h')
    rw [if_neg (not_or_intro (not_not_intro hd) (Nat.not_le_of_gt hc)), if_pos ⟨hd, hc⟩,
      Nat.mod_eq_of_lt hi]
    rfl
  · have hn : ¬ t.extent tier ∣ o ∨ t.capacity ≤ o := by
      rw [← Nat.not_lt]
      exact Decidable.not_and_iff_not_or_not.1 hd
    rw [if_pos hn, if_neg hd]
    rfl

/-! ### The block size of a request -/

theorem sizeClass_eq (size : Nat) : ∃ k, sizeClass size = 2 ^ (4 + k) := by
  have hl := Word.nextPowerOfTwo_isLeast (max size leastBlock)
  obtain ⟨⟨⟨k, hk⟩, hle⟩, -⟩ := hl
  have h₄ : 2 ^ 4 ≤ 2 ^ k := by
    rw [← hk]
    exact Nat.le_trans (Nat.le_max_right size leastBlock) hle
  have hk₄ := (Nat.pow_le_pow_iff_right (by decide : 1 < 2)).1 h₄
  refine ⟨k - 4, ?_⟩
  rw [Nat.add_sub_cancel' hk₄]
  exact hk

/-- The size class of a request is the smallest block size that holds it. -/
theorem sizeClass_isLeast (size : Nat) :
    IsLeast {c | (∃ k, c = 16 * 2 ^ k) ∧ size ≤ c} (sizeClass size) := by
  have hl := Word.nextPowerOfTwo_isLeast (max size leastBlock)
  constructor
  · obtain ⟨k, hk⟩ := sizeClass_eq size
    refine ⟨⟨k, ?_⟩, Nat.le_trans (Nat.le_max_left size leastBlock) hl.1.2⟩
    rw [hk, Nat.pow_add]
  · rintro c ⟨⟨k, rfl⟩, hc⟩
    apply hl.2
    refine ⟨⟨4 + k, ?_⟩, Nat.max_le.2 ⟨hc, ?_⟩⟩
    · rw [Nat.pow_add]
    · exact Nat.le_mul_of_pos_right _ (Nat.two_pow_pos k)

theorem sizeClass_le_extent : sizeClass size ≤ t.extent tier ↔ size ≤ t.extent tier := by
  have hl := sizeClass_isLeast size
  exact ⟨Nat.le_trans hl.1.2, fun hle => hl.2 ⟨⟨t.count - 1 - tier, rfl⟩, hle⟩⟩

theorem fit_none (t : Tiers) (h : size = 0 ∨ t.capacity < size) : t.fit size = .ok none := by
  rw [fit, if_pos h]
  rfl

/-- A request that is not empty and not larger than the capacity is served from the tier of its size
class. -/
theorem fit_some (hw : t.WellFormed) (h : size ≠ 0) (h' : size ≤ t.capacity) :
    ∃ tier, tier < t.count ∧ t.extent tier = sizeClass size ∧ t.fit size = .ok (some tier) := by
  have hl := (sizeClass_isLeast size).2
  obtain ⟨k, hk⟩ := sizeClass_eq size
  have hn := hw.count_le
  have hp := hw.count_pos
  have hcap : t.capacity = 2 ^ (4 + (t.count - 1)) := by
    rw [hw.capacity_eq, extent_eq_two_pow, Nat.sub_zero]
  have hle : sizeClass size ≤ t.capacity := hl ⟨⟨t.count - 1, hw.capacity_eq⟩, h'⟩
  have hkc : k ≤ t.count - 1 := by
    rw [hk, hcap, Nat.pow_le_pow_iff_right (by decide)] at hle
    omega
  refine ⟨t.count - 1 - k, by omega, ?_, ?_⟩
  · rw [extent_eq_two_pow, hk]
    congr 2
    omega
  · have hs : Word.trailingZeros (Word.nextPowerOfTwo (max size leastBlock)) = 4 + k := by
      rw [← Word.trailingZeros_two_pow (k := 4 + k) (by omega), ← hk]
      rfl
    rw [fit, if_neg (by omega)]
    dsimp only
    rw [hs, hcap, Word.trailingZeros_two_pow (by omega), Word.sub_ok (by omega), Checked.ok_bind,
      Nat.add_sub_add_left]
    rfl

/-! ### The tiers of a new pool -/

theorem of_two_pow (hk : 4 ≤ k) (hk' : k < 64) : Tiers.of (2 ^ k) = .ok ⟨2 ^ k, k - 3⟩ := by
  have hp : leastBlock ≤ 2 ^ k := Nat.pow_le_pow_right (n := 2) (by decide) hk
  rw [Tiers.of, if_neg (by simp [Word.isPowerOfTwo_two_pow, hp]), Word.trailingZeros_two_pow hk',
    Word.sub_ok hk, Checked.ok_bind]
  have : k - 4 + 1 = k - 3 := by omega
  rw [this]
  rfl

theorem wellFormed_two_pow (hk : 4 ≤ k) (hk' : k < 64) : WellFormed ⟨2 ^ k, k - 3⟩ := by
  refine ⟨by change 0 < k - 3; omega, by change k - 3 ≤ 60; omega, ?_⟩
  rw [extent_eq_two_pow]
  change 2 ^ k = 2 ^ (4 + (k - 3 - 1 - 0))
  congr 1
  omega

end Tiers

namespace Word

theorem powerOfTwoWithin_ok (size : Nat) {least most : Nat} (h : least ≤ most) (hm : most < 64) :
    ∃ k, least ≤ k ∧ k ≤ most ∧ powerOfTwoWithin size least most = .ok (2 ^ k) := by
  have hb : ∀ n, n ≤ most → shiftLeft 1 n = .ok (2 ^ n) := by
    intro n hn
    have := Nat.pow_lt_pow_right (by decide : 1 < 2) (Nat.lt_of_le_of_lt hn hm)
    rw [shiftLeft_ok (by omega) (by rw [Nat.one_mul]; exact this), Nat.one_mul]
  rw [powerOfTwoWithin, hb most (Nat.le_refl _), Checked.ok_bind]
  by_cases hs : 2 ^ most ≤ size
  · exact ⟨most, h, Nat.le_refl _, if_pos hs⟩
  · rw [if_neg hs, hb least h, Checked.ok_bind]
    have hl := nextPowerOfTwo_isLeast (max size (2 ^ least))
    obtain ⟨⟨⟨k, hk⟩, hle⟩, hmin⟩ := hl
    have hlo : 2 ^ least ≤ 2 ^ k := hk ▸ Nat.le_trans (Nat.le_max_right ..) hle
    have hhi : 2 ^ k ≤ 2 ^ most := by
      rw [← hk]
      apply hmin
      refine ⟨⟨most, rfl⟩, Nat.max_le.2 ⟨Nat.le_of_not_ge hs, ?_⟩⟩
      exact Nat.pow_le_pow_right (by decide) h
    rw [Nat.pow_le_pow_iff_right (by decide)] at hlo hhi
    exact ⟨k, hlo, hhi, congrArg Except.ok hk⟩

end Word

end FixedPool
