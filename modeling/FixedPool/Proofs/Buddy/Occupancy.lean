import FixedPool.Proofs.Buddy.Tree
import Mathlib.Data.Finset.Erase
import Mathlib.Data.Finset.Insert

/-!
Which blocks are marked and which are free, as functions of the set of live blocks: a block is in use
if a live block lies in it, and free if it is a largest block that meets none. Taking, splitting and
merging blocks change the two together.
-/

namespace FixedPool.Block

/-- No live block has bytes in common with a block. -/
def Vacant (live : Finset Block) (b : Block) : Prop := ∀ l ∈ live, ¬ b.Meets l

/-- A block is vacant, and is no half of a vacant block. -/
def Free (live : Finset Block) (b : Block) : Prop :=
  b.Vacant live ∧ (0 < b.tier → ¬ b.up.Vacant live)

/-- A block is live, or a live block is a part of it. -/
def InUse (live : Finset Block) (b : Block) : Prop := ∃ l ∈ live, l.Within b

/-- No two live blocks have bytes in common. -/
def Apart (live : Finset Block) : Prop := ∀ a ∈ live, ∀ b ∈ live, a.Meets b → a = b

instance (live : Finset Block) (b : Block) : Decidable (b.Vacant live) :=
  inferInstanceAs (Decidable (∀ l ∈ live, _))

instance (live : Finset Block) (b : Block) : Decidable (b.Free live) :=
  inferInstanceAs (Decidable (_ ∧ _))

instance (live : Finset Block) (b : Block) : Decidable (b.InUse live) :=
  inferInstanceAs (Decidable (∃ l ∈ live, _))

variable {live : Finset Block} {a b l x : Block}

/-! ### Vacant blocks -/

theorem Vacant.within (h : b.Vacant live) (hw : a.Within b) : a.Vacant live := by
  intro l hl hm
  exact h l hl (hm.mono hw)

theorem vacant_insert : x.Vacant (insert l live) ↔ ¬ x.Meets l ∧ x.Vacant live := by
  simp only [Vacant, Finset.mem_insert, forall_eq_or_imp]

theorem Vacant.rightChild_insert (h : b.Vacant live) :
    b.leftChild.buddy.Vacant (insert b.leftChild live) :=
  vacant_insert.2 ⟨fun hm => not_meets_buddy b.leftChild hm.symm, h.within (rightChild_within b)⟩

theorem Vacant.not_inUse (h : b.Vacant live) : ¬ b.InUse live := by
  rintro ⟨l, hl, hw⟩
  exact h l hl (.inr hw)

theorem inUse_insert : x.InUse (insert l live) ↔ l.Within x ∨ x.InUse live := by
  simp only [InUse, Finset.mem_insert, exists_eq_or_imp]

/-- A block of which the other half is vacant is vacant too, unless it is in use. -/
theorem Vacant.buddy (h : b.Vacant live) (ht : 0 < b.tier) (hu : ¬ b.buddy.InUse live) :
    b.buddy.Vacant live := by
  rintro l hl (hw | hw)
  · by_cases he : b.buddy = l
    · exact hu ⟨l, hl, he ▸ .refl _⟩
    · obtain ⟨-, hp⟩ := hw.up he
      rw [up_buddy] at hp
      exact h l hl (.inl ((within_up ht).trans hp))
  · exact hu ⟨l, hl, hw⟩

theorem vacant_up (ht : 0 < b.tier) (h : b.Vacant live) (h' : b.buddy.Vacant live) :
    b.up.Vacant live := by
  intro l hl hm
  obtain hm | hm := (meets_up ht).1 hm
  · exact h l hl hm
  · exact h' l hl hm

theorem InUse.not_vacant_up (h : b.buddy.InUse live) (ht : 0 < b.tier) : ¬ b.up.Vacant live := by
  intro hv
  exact (hv.within (up_buddy b ▸ within_up (b := b.buddy) ht)).not_inUse h

/-! ### Free blocks -/

theorem Free.eq_of_meets (ha : a.Free live) (hb : b.Free live) (hm : a.Meets b) : a = b := by
  have part : ∀ {c d : Block}, c.Free live → d.Free live → c.Within d → c = d := by
    intro c d hc hd hw
    by_contra he
    obtain ⟨ht, hu⟩ := hw.up he
    exact hc.2 ht (hd.1.within hu)
  obtain hw | hw := hm
  · exact part ha hb hw
  · exact (part hb ha hw).symm

theorem Free.not_buddy (h : b.Free live) (ht : 0 < b.tier) : ¬ b.buddy.Free live := by
  intro h'
  exact h.2 ht (vacant_up ht h.1 h'.1)

/-- Without live blocks, the root block is free and its parts are not. -/
theorem free_empty : b.Free ∅ ↔ b.tier = 0 := by
  have hv : ∀ a : Block, a.Vacant ∅ := fun a l hl => absurd hl (Finset.notMem_empty l)
  constructor
  · intro h
    by_contra ht
    exact h.2 (Nat.pos_of_ne_zero ht) (hv b.up)
  · intro ht
    exact ⟨hv b, fun hpos => absurd ht (Nat.ne_of_gt hpos)⟩

/-- Every vacant block is a part of a free one. -/
theorem Vacant.exists_free (h : b.Vacant live) : ∃ f : Block, f.Free live ∧ b.Within f := by
  obtain ⟨tier, index⟩ := b
  induction tier generalizing index with
  | zero => exact ⟨_, ⟨h, fun ht => absurd ht (Nat.lt_irrefl 0)⟩, .refl _⟩
  | succ tier ih =>
    by_cases hu : (⟨tier, index / 2⟩ : Block).Vacant live
    · obtain ⟨f, hf, hw⟩ := ih (index / 2) hu
      exact ⟨f, hf, (within_up (b := ⟨tier + 1, index⟩) (Nat.succ_pos tier)).trans hw⟩
    · exact ⟨_, ⟨h, fun _ => hu⟩, .refl _⟩

/-! ### Taking a free block -/

/-- A free block that becomes live is the only one that is no longer free. -/
theorem Free.free_insert (h : b.Free live) :
    x.Free (insert b live) ↔ x.Free live ∧ x ≠ b := by
  constructor
  · rintro ⟨hv, hu⟩
    obtain ⟨hm, hv⟩ := vacant_insert.1 hv
    have hne : x ≠ b := by
      rintro rfl
      exact hm (.refl x)
    refine ⟨⟨hv, ?_⟩, hne⟩
    intro ht hvu
    apply hu ht
    refine vacant_insert.2 ⟨?_, hvu⟩
    rintro (hw | hw)
    · exact hm (.inl ((within_up ht).trans hw))
    · by_cases he : b = x.up
      · exact hm (.inl (he ▸ within_up ht))
      · obtain ⟨hb, hbu⟩ := hw.up he
        exact h.2 hb (hvu.within hbu)
  · rintro ⟨hx, hne⟩
    refine ⟨vacant_insert.2 ⟨fun hm => hne (hx.eq_of_meets h hm), hx.1⟩, ?_⟩
    intro ht hvu
    exact hx.2 ht (vacant_insert.1 hvu).2

theorem Free.inUse_insert (h : b.Free live) :
    x.InUse (insert b live) ↔ x.InUse live ∨ x = b := by
  rw [Block.inUse_insert]
  constructor
  · rintro (hw | hu)
    · by_cases he : b = x
      · exact .inr he.symm
      · obtain ⟨ht, hp⟩ := hw.up he
        -- Something of the parent is live, and it is not all of the parent.
        have hl := h.2 ht
        rw [Vacant] at hl
        push Not at hl
        obtain ⟨l, hl, hm | hm⟩ := hl
        · exact absurd (.inl ((within_up ht).trans hm)) (h.1 l hl)
        · exact .inl ⟨l, hl, hm.trans hp⟩
    · exact .inl hu
  · rintro (hu | rfl)
    · exact .inr hu
    · exact .inl (.refl x)

/-- When a part of a free block becomes live, the blocks from the part up to the free one come into
use. -/
theorem Free.inUse_insert_within (h : a.Free live) (hw : b.Within a) :
    x.InUse (insert b live) ↔ x.InUse live ∨ a.tier ≤ x.tier ∧ b.Within x := by
  rw [Block.inUse_insert]
  constructor
  · rintro (hx | hu)
    · obtain ht | ht := Nat.lt_or_ge x.tier a.tier
      · have hax : a.Within x := hx.chain hw (Nat.le_of_lt ht)
        have hne : x ≠ a := fun he => Nat.ne_of_lt ht (congrArg tier he)
        exact .inl ((h.inUse_insert.1 (Block.inUse_insert.2 (.inl hax))).resolve_right hne)
      · exact .inr ⟨ht, hx⟩
    · exact .inl hu
  · rintro (hu | ⟨-, hx⟩)
    · exact .inr hu
    · exact .inl hx

theorem Free.not_inUse_of_within (h : a.Free live) (hw : b.Within a) (ht : a.tier ≤ x.tier)
    (hx : b.Within x) : ¬ x.InUse live :=
  (h.1.within (hw.chain hx ht)).not_inUse

/-! ### Splitting a live block -/

theorem vacant_split (ht : 0 < b.tier) :
    x.Vacant (insert b (insert b.buddy live)) ↔ x.Vacant (insert b.up live) := by
  rw [vacant_insert, vacant_insert, vacant_insert, meets_comm, meets_comm (b := b.buddy),
    meets_comm (b := b.up), meets_up ht, not_or, and_assoc]

theorem free_split (ht : 0 < b.tier) :
    x.Free (insert b (insert b.buddy live)) ↔ x.Free (insert b.up live) := by
  rw [Free, Free, vacant_split ht, vacant_split ht]

theorem inUse_split (ht : 0 < b.tier) :
    x.InUse (insert b (insert b.buddy live)) ↔
      x.InUse (insert b.up live) ∨ x = b ∨ x = b.buddy := by
  have hu := within_up ht
  have hu' : b.buddy.Within b.up := up_buddy b ▸ within_up (b := b.buddy) ht
  rw [inUse_insert, inUse_insert, inUse_insert]
  constructor
  · rintro (hw | hw | hx)
    · by_cases he : b = x
      · exact .inr (.inl he.symm)
      · exact .inl (.inl (hw.up he).2)
    · by_cases he : b.buddy = x
      · exact .inr (.inr he.symm)
      · exact .inl (.inl (up_buddy b ▸ (hw.up he).2))
    · exact .inl (.inr hx)
  · rintro ((hw | hx) | rfl | rfl)
    · exact .inl (hu.trans hw)
    · exact .inr (.inr hx)
    · exact .inl (.refl x)
    · exact .inr (.inl (.refl _))

/-! ### Merging two halves -/

/-- While a block is live whose other half is vacant, that half is free. -/
theorem Vacant.free_buddy (hv : b.buddy.Vacant live) : b.buddy.Free (insert b live) := by
  refine ⟨vacant_insert.2 ⟨fun hm => not_meets_buddy b hm.symm, hv⟩, ?_⟩
  intro ht hvu
  rw [up_buddy] at hvu
  exact (vacant_insert.1 hvu).1 (.inr (within_up ht))

theorem Vacant.free (hv : b.Vacant live) (hu : 0 < b.tier → b.buddy.InUse live) : b.Free live :=
  ⟨hv, fun ht => (hu ht).not_vacant_up ht⟩

theorem free_merge (ht : 0 < b.tier) (hv : b.buddy.Vacant live) :
    x.Free (insert b.up live) ↔ x.Free (insert b live) ∧ x ≠ b.buddy := by
  rw [← free_split ht, Finset.insert_comm, hv.free_buddy.free_insert]

theorem Vacant.not_inUse_insert_up (h : b.Vacant live) (ht : 0 < b.tier) :
    ¬ b.InUse (insert b.up live) := by
  intro hu
  obtain hw | hu := inUse_insert.1 hu
  · exact not_up_within ht hw
  · exact h.not_inUse hu

theorem inUse_merge (ht : 0 < b.tier) (hb : b.Vacant live) (hv : b.buddy.Vacant live) :
    x.InUse (insert b.up live) ↔ x.InUse (insert b live) ∧ x ≠ b := by
  have hs : x.InUse (insert b (insert b.buddy live)) ↔
      x.InUse (insert b.up live) ∨ x = b ∨ x = b.buddy := inUse_split ht
  rw [Finset.insert_comm, hv.free_buddy.inUse_insert] at hs
  have h₁ := hb.not_inUse_insert_up ht
  have h₂ := hv.not_inUse_insert_up ht
  rw [up_buddy] at h₂
  constructor
  · intro hx
    have hxb : x ≠ b := by
      rintro rfl
      exact h₁ hx
    have hxb' : x ≠ b.buddy := by
      rintro rfl
      exact h₂ hx
    exact ⟨(hs.2 (.inl hx)).resolve_right hxb', hxb⟩
  · rintro ⟨hx, hxb⟩
    obtain hx' | rfl | rfl := hs.1 (.inl hx)
    · exact hx'
    · exact absurd rfl hxb
    · obtain hw | hx := inUse_insert.1 hx
      · exact absurd hw (not_within_buddy b)
      · exact absurd hx hv.not_inUse

/-! ### Sets of blocks that have nothing in common -/

theorem Apart.insert (h : Apart live) (hb : b.Vacant live) : Apart (insert b live) := by
  intro x hx y hy hm
  obtain hxb | hx := Finset.mem_insert.1 hx
  · obtain hyb | hy := Finset.mem_insert.1 hy
    · rw [hxb, hyb]
    · exact absurd (hxb ▸ hm) (hb y hy)
  · obtain hyb | hy := Finset.mem_insert.1 hy
    · exact absurd (hyb ▸ hm.symm) (hb x hx)
    · exact h x hx y hy hm

theorem Apart.vacant_erase (h : Apart live) (hb : b ∈ live) : b.Vacant (live.erase b) := by
  intro l hl hm
  obtain ⟨hne, hl⟩ := Finset.mem_erase.1 hl
  exact hne (h b hb l hl hm).symm

theorem Apart.mono {live' : Finset Block} (h : Apart live') (hs : live ⊆ live') : Apart live := by
  intro x hx y hy hm
  exact h x (hs hx) y (hs hy) hm

/-- A block is live if it is in use and neither of its halves is. -/
theorem Apart.mem_iff (h : Apart live) :
    b ∈ live ↔ b.InUse live ∧ ¬ b.leftChild.InUse live ∧ ¬ b.leftChild.buddy.InUse live := by
  have half : ∀ c : Block, c.tier = b.tier + 1 → c.Within b → b ∈ live → ¬ c.InUse live := by
    rintro c hc hcb hb ⟨l, hl, hw⟩
    have he := h l hl b hb (.inl (hw.trans hcb))
    have hle := hw.1
    rw [he] at hle
    omega
  constructor
  · intro hb
    exact ⟨⟨b, hb, .refl b⟩, half _ rfl (leftChild_within b) hb,
      half _ rfl (rightChild_within b) hb⟩
  · rintro ⟨⟨l, hl, hw⟩, h₁, h₂⟩
    have hu : l.Within b.leftChild.up := by
      rw [up_leftChild]
      exact hw
    obtain he | hw | hw := hu.halves (Nat.succ_pos b.tier)
    · rw [up_leftChild] at he
      exact he ▸ hl
    · exact absurd ⟨l, hl, hw⟩ h₁
    · exact absurd ⟨l, hl, hw⟩ h₂

end FixedPool.Block
