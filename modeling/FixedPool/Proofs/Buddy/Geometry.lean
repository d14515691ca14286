import FixedPool.Proofs.Buddy.Tiers

/-!
The computations on tiers agree with one another, for every capacity that a pool can have: what a
request is served from, which block begins at an offset and where a block begins, and the halves of
a block. Each of them ends, so none overflows.
-/

namespace FixedPool

namespace Tiers

/-- The bytes of a block as they are computed. -/
def Ranges (t : Tiers) (b : Block) (s : Span) : Prop :=
  t.start b = .ok s.start ∧ t.width b.tier = .ok s.size

/-- The tiers whose blocks can be counted in 32 bits. -/
def numbered (t : Tiers) : Nat := min t.count 32

/-- The tiers whose blocks hold `size` bytes. -/
def holding (t : Tiers) (size : Nat) : Set Nat :=
  {tier | tier < t.count ∧ ∃ w, t.width tier = .ok w ∧ size ≤ w}

/-- A block that is split into two halves, of which the first begins where the block does. -/
structure Halves (t : Tiers) (b left right : Block) : Prop where
  exists_left : left.Exists
  exists_right : right.Exists
  parent_left : left.parent = .ok b
  parent_right : right.parent = .ok b
  ranges : ∃ o w, t.Ranges b ⟨o, w + w⟩ ∧ t.Ranges left ⟨o, w⟩ ∧ t.Ranges right ⟨o + w, w⟩

/-- How requests, offsets and blocks of one capacity belong together. -/
structure Geometry (t : Tiers) : Prop where
  width : ∀ tier < t.count, ∃ w, t.width tier = .ok w ∧ 2 ^ tier * w = t.capacity
  fit_none : ∀ size, t.fit size = .ok none ↔ size = 0 ∨ t.capacity < size
  fit_some : ∀ size, ¬ (size = 0 ∨ t.capacity < size) →
    ∃ tier, t.fit size = .ok (some tier) ∧ IsGreatest (t.holding size) tier
  /-- The size that a request is rounded up to does not leave the word. -/
  sizeClass_le : ∀ size ≤ t.capacity, sizeClass size ≤ t.capacity
  starting : ∀ tier < t.numbered, ∀ o, ∃ found, t.starting tier o = .ok found ∧
    (found.isSome ↔ o < t.capacity ∧ ∃ w, t.width tier = .ok w ∧ w ∣ o) ∧
    ∀ b ∈ found, b.tier = tier ∧ b.index < 2 ^ tier ∧ t.start b = .ok o
  start : ∀ b : Block, b.tier < t.numbered → b.index < 2 ^ b.tier →
    ∃ o, t.start b = .ok o ∧ t.starting b.tier o = .ok (some b)
  halves : ∀ b : Block, b.tier + 1 < t.numbered → b.index < 2 ^ b.tier →
    t.Halves b b.leftChild b.leftChild.buddy

variable {t : Tiers} {b : Block} {tier o size k : Nat}

theorem ranges (hw : t.WellFormed) (hb : t.Holds b) : t.Ranges b (t.span b) :=
  ⟨start_ok hw hb, width_ok hw hb.1⟩

theorem lt_count_of_numbered (h : tier < t.numbered) : tier < t.count :=
  Nat.lt_of_lt_of_le h (Nat.min_le_left _ _)

theorem lt_of_numbered (h : tier < t.numbered) : tier < 32 :=
  Nat.lt_of_lt_of_le h (Nat.min_le_right _ _)

theorem holds_of_numbered (h : b.tier < t.numbered) (hi : b.index < 2 ^ b.tier) : t.Holds b :=
  ⟨lt_count_of_numbered h, hi⟩

/-! ### Requests -/

theorem mem_holding (hw : t.WellFormed) :
    tier ∈ t.holding size ↔ tier < t.count ∧ size ≤ t.extent tier := by
  apply and_congr_right
  intro h
  simp [width_ok hw h]

theorem fit_eq_none (hw : t.WellFormed) :
    t.fit size = .ok none ↔ size = 0 ∨ t.capacity < size := by
  refine ⟨?_, t.fit_none⟩
  intro h
  by_contra hn
  obtain ⟨hz, hc⟩ := not_or.1 hn
  obtain ⟨tier, -, -, hf⟩ := fit_some hw hz (Nat.le_of_not_lt hc)
  rw [hf] at h
  cases h

/-- A request is served from the deepest of the tiers whose blocks hold it. -/
theorem fit_isGreatest (hw : t.WellFormed) (h : size ≠ 0) (h' : size ≤ t.capacity) :
    ∃ tier, t.fit size = .ok (some tier) ∧ IsGreatest (t.holding size) tier := by
  obtain ⟨tier, ht, he, hf⟩ := fit_some hw h h'
  refine ⟨tier, hf, ?_, ?_⟩
  · rw [mem_holding hw, he]
    exact ⟨ht, (sizeClass_isLeast size).1.2⟩
  · intro k hk
    obtain ⟨hk, hle⟩ := (mem_holding hw).1 hk
    apply tier_le_of_extent hk ht
    rw [he]
    exact sizeClass_le_extent.2 hle

theorem sizeClass_le_capacity (hw : t.WellFormed) (h : size ≤ t.capacity) :
    sizeClass size ≤ t.capacity := by
  rw [hw.capacity_eq] at h ⊢
  exact sizeClass_le_extent.2 h

/-! ### Offsets -/

/-- At a multiple of the size of a tier's blocks begins one of them, and nowhere else. -/
theorem starting_isSome (hw : t.WellFormed) (h : tier < t.numbered) (o : Nat) :
    ∃ found, t.starting tier o = .ok found ∧
      (found.isSome ↔ o < t.capacity ∧ ∃ w, t.width tier = .ok w ∧ w ∣ o) ∧
      ∀ b ∈ found, b.tier = tier ∧ b.index < 2 ^ tier ∧ t.start b = .ok o := by
  have hc := lt_count_of_numbered h
  have hs : t.starting tier o = _ := starting_ok hw hc (Nat.le_of_lt (lt_of_numbered h))
  by_cases hd : t.extent tier ∣ o ∧ o < t.capacity
  · rw [if_pos hd] at hs
    refine ⟨_, hs, by simp [width_ok hw hc, hd], ?_⟩
    rintro b ⟨⟩
    have hb := (exists_holds_has hw hc hd.2).1
    refine ⟨rfl, hb.2, ?_⟩
    rw [start_ok hw hb]
    exact congrArg Except.ok (Nat.div_mul_cancel hd.1)
  · rw [if_neg hd] at hs
    refine ⟨_, hs, ?_, nofun⟩
    rw [and_comm] at hd
    simp [width_ok hw hc, hd]

theorem starting_offset (hw : t.WellFormed) (hb : t.Holds b) (h : b.tier ≤ 32) :
    t.starting b.tier (t.offset b) = .ok (some b) := by
  have hd : t.extent b.tier ∣ t.offset b := Nat.dvd_mul_left _ _
  have hi : t.offset b / t.extent b.tier = b.index := has_span.1 (has_offset t b)
  rw [starting_ok hw hb.1 h, if_pos ⟨hd, hb.offset_lt hw⟩, hi]

/-! ### Halves -/

theorem exists_of_lt (h : b.tier < t.numbered) (hi : b.index < 2 ^ b.tier) : b.Exists := by
  refine ⟨lt_of_numbered h, ?_⟩
  rw [Nat.one_shiftLeft]
  exact hi

theorem parent_eq_up (h : 0 < b.tier) : b.parent = .ok b.up := by
  obtain ⟨_ | tier, index⟩ := b
  · cases h
  · rfl

/-- The buddy of the first half of a block begins where that half ends. -/
theorem offset_rightChild (h : b.tier + 1 < t.count) :
    t.offset b.leftChild.buddy = t.offset b + t.extent (b.tier + 1) := by
  rw [← offset_leftChild h, offset, offset, Block.index_rightChild, Nat.succ_mul]
  rfl

theorem halves (hw : t.WellFormed) (h : b.tier + 1 < t.numbered) (hi : b.index < 2 ^ b.tier) :
    t.Halves b b.leftChild b.leftChild.buddy := by
  have hc := lt_count_of_numbered h
  have hb : t.Holds b := holds_of_numbered (Nat.lt_of_succ_lt h) hi
  have hl : t.Holds b.leftChild := hb.leftChild hc
  have hr : t.Holds b.leftChild.buddy := hl.buddy (Nat.succ_pos _)
  refine ⟨exists_of_lt h hl.2, exists_of_lt h hr.2, ?_, ?_, t.offset b, t.extent (b.tier + 1), ?_⟩
  · rw [parent_eq_up (Nat.succ_pos _), Block.up_leftChild]
  · rw [parent_eq_up (Nat.succ_pos _), Block.up_buddy, Block.up_leftChild]
  · have he : t.extent b.tier = t.extent (b.tier + 1) + t.extent (b.tier + 1) := by
      rw [extent_add hc, Nat.pow_one, Nat.mul_two]
    rw [← he]
    refine ⟨ranges hw hb, ?_, ?_⟩
    · have hs : t.Ranges b.leftChild (t.span b.leftChild) := ranges hw hl
      rw [span, offset_leftChild hc] at hs
      exact hs
    · have hs : t.Ranges b.leftChild.buddy (t.span b.leftChild.buddy) := ranges hw hr
      rw [span, offset_rightChild hc] at hs
      exact hs

theorem WellFormed.geometry (hw : t.WellFormed) : t.Geometry where
  width tier h := ⟨t.extent tier, width_ok hw h, (capacity_eq_mul hw h).symm⟩
  fit_none _ := fit_eq_none hw
  fit_some size h := by
    obtain ⟨hz, hc⟩ := not_or.1 h
    exact fit_isGreatest hw hz (Nat.le_of_not_lt hc)
  sizeClass_le _ := sizeClass_le_capacity hw
  starting _ h o := starting_isSome hw h o
  start b h hi := by
    have hb := holds_of_numbered h hi
    exact ⟨t.offset b, start_ok hw hb, starting_offset hw hb (Nat.le_of_lt (lt_of_numbered h))⟩
  halves _ := halves hw

/-- Every power of two from 16 bytes on that a word can hold is split into tiers that belong
together. -/
theorem exists_geometry (hk : 4 ≤ k) (hk' : k ≤ 63) :
    ∃ t, Tiers.of (2 ^ k) = .ok t ∧ t.capacity = 2 ^ k ∧ t.count + 3 = k ∧ t.Geometry := by
  have hlt : k < 64 := Nat.lt_succ_of_le hk'
  refine ⟨⟨2 ^ k, k - 3⟩, of_two_pow hk hlt, rfl, ?_, (wellFormed_two_pow hk hlt).geometry⟩
  exact Nat.sub_add_cancel (Nat.le_trans (by decide) hk)

/-- The largest capacity has 60 tiers, of which 32 can be counted. -/
theorem exists_geometry_largest :
    4 ≤ 63 ∧ 63 ≤ 63 ∧ Tiers.of (2 ^ 63) = .ok ⟨2 ^ 63, 60⟩ ∧ (⟨2 ^ 63, 60⟩ : Tiers).Geometry := by
  refine ⟨by decide, by decide, of_two_pow (by decide) (by decide), ?_⟩
  obtain ⟨t, ht, hc, hn, hg⟩ := exists_geometry (k := 63) (by decide) (by decide)
  have he : t = ⟨2 ^ 63, 60⟩ := by
    obtain ⟨capacity, count⟩ := t
    rw [mk.injEq]
    exact ⟨hc, Nat.add_right_cancel hn⟩
  rw [← he]
  exact hg

end Tiers

end FixedPool
