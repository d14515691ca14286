import FixedPool.Buddy.Pool
import FixedPool.Proofs.Buddy.FreeList
import FixedPool.Proofs.Buddy.Occupancy

/-!
A pool represents a set of live blocks: its marks are on the blocks in use, and its lists hold the
free ones. Splitting and merging are steps from one such set to another.
-/

namespace FixedPool

namespace FreeLists

/-- The lists after a block was released that was merged with its buddies as far as they are free. -/
def coalesced (F : FreeLists) : Nat → Nat → FreeLists
  | 0, index => F.push ⟨0, index⟩
  | tier + 1, index =>
    let b : Block := ⟨tier + 1, index⟩
    if b.buddy.index ∈ F (tier + 1) then coalesced (F.drop b.buddy) tier (index / 2)
    else F.push b

theorem coalesced_stop {F : FreeLists} {tier i : Nat}
    (h : ¬ F.Lists (⟨tier + 1, i⟩ : Block).buddy) :
    F.coalesced (tier + 1) i = F.push ⟨tier + 1, i⟩ :=
  if_neg h

theorem coalesced_merge {F : FreeLists} {tier i : Nat}
    (h : F.Lists (⟨tier + 1, i⟩ : Block).buddy) :
    F.coalesced (tier + 1) i =
      (F.drop (⟨tier + 1, i⟩ : Block).buddy).coalesced tier (i / 2) :=
  if_pos h

/-- The index of the block of a tier that is handed out next, and the lists that stay. -/
def carved (F : FreeLists) : Nat → Option (Nat × FreeLists)
  | 0 =>
    match F 0 with
    | [] => none
    | index :: _ => some (index, F.drop ⟨0, index⟩)
  | tier + 1 =>
    match F (tier + 1) with
    | index :: _ => some (index, F.drop ⟨tier + 1, index⟩)
    | [] =>
      match carved F tier with
      | none => none
      | some (index, G) => some (2 * index, G.push ⟨tier + 1, 2 * index + 1⟩)

theorem carved_eq_none {F : FreeLists} {tier : Nat} :
    F.carved tier = none ↔ ∀ s ≤ tier, F s = [] := by
  induction tier with
  | zero =>
    rw [carved]
    constructor
    · intro h s hs
      obtain rfl := Nat.le_zero.1 hs
      split at h
      next hf => exact hf
      next => cases h
    · intro h
      rw [h 0 (Nat.le_refl 0)]
  | succ tier ih =>
    rw [carved]
    constructor
    · intro h s hs
      split at h
      next => cases h
      next hf =>
        split at h
        next hn =>
          obtain hs | rfl := Nat.le_succ_iff.1 hs
          · exact ih.1 hn s hs
          · exact hf
        next => cases h
    · intro h
      rw [h (tier + 1) (Nat.le_refl _), ih.2 fun s hs => h s (Nat.le_succ_of_le hs)]

/-- Releasing a block right after it was handed out leaves the lists as they were, each in its
order. -/
theorem coalesced_carved {F G : FreeLists} {tier i : Nat}
    (hn : ∀ b, F.Lists b → 0 < b.tier → ¬ F.Lists b.buddy) (hc : F.carved tier = some (i, G)) :
    G.coalesced tier i = F := by
  -- Along the splits: each merge takes the half off again that the split has put on its list.
  induction tier generalizing i G with
  | zero =>
    cases hf : F 0 with
    | nil =>
      rw [carved, hf] at hc
      cases hc
    | cons index rest =>
      rw [carved, hf] at hc
      cases hc
      exact push_drop hf
  | succ tier ih =>
    cases hf : F (tier + 1) with
    | cons index rest =>
      rw [carved, hf] at hc
      cases hc
      have hb : F.Lists ⟨tier + 1, i⟩ := lists_of_cons hf
      rw [coalesced_stop, push_drop hf]
      intro hl
      exact hn _ hb (Nat.succ_pos tier) (lists_of_drop hl)
    | nil =>
      rw [carved, hf] at hc
      cases hG : F.carved tier with
      | none =>
        rw [hG] at hc
        cases hc
      | some whole =>
        obtain ⟨index, G'⟩ := whole
        rw [hG] at hc
        cases hc
        have hbuddy : (⟨tier + 1, 2 * index⟩ : Block).buddy = ⟨tier + 1, 2 * index + 1⟩ :=
          congrArg (Block.mk (tier + 1)) (Block.index_rightChild ⟨tier, index⟩)
        have hhalf : 2 * index / 2 = index := by omega
        rw [coalesced_merge, hbuddy, drop_push, hhalf, ih hG]
        rw [hbuddy]
        exact lists_push.2 (.inl rfl)

end FreeLists

namespace Buddy

/-- The marks and the lists of a pool are those of a set of live blocks. -/
structure Represents (p : Buddy) (live : Finset Block) (F : FreeLists) : Prop
    extends p.Threads F where
  covers : p.marks.Covers p.tiers.count
  live_holds : ∀ b ∈ live, p.tiers.Holds b
  live_apart : Block.Apart live
  marked_iff : ∀ b, p.tiers.Holds b → (p.marks.Marked b ↔ b.InUse live)
  lists_iff : ∀ b, p.tiers.Holds b → (F.Lists b ↔ b.Free live)

/-- One state keeps the bytes that another one has in the live blocks. -/
structure Keeps (p q : Buddy) (live : Finset Block) : Prop where
  tiers : q.tiers = p.tiers
  size : q.region.size = p.region.size
  byte : ∀ b ∈ live, ∀ o, (p.tiers.span b).Has o → q.region.byte o = p.region.byte o

/-- One state follows another by changes to nothing but marks, lists and bytes outside of the live
blocks. -/
structure Follows (p q : Buddy) (live : Finset Block) : Prop extends p.Keeps q live where
  used : q.used = p.used
  peak : q.peak = p.peak

@[irreducible] def withMarks (p : Buddy) (m : Bitmap) : Buddy := { p with marks := m }

variable {p q r : Buddy} {live live' : Finset Block} {F G : FreeLists} {a b : Block} {tier : Nat}
  {m : Bitmap}

theorem Keeps.refl (p : Buddy) (live : Finset Block) : p.Keeps p live :=
  ⟨rfl, rfl, fun _ _ _ _ => rfl⟩

theorem Keeps.trans (h : p.Keeps q live) (h' : q.Keeps r live) : p.Keeps r live where
  tiers := h'.tiers.trans h.tiers
  size := h'.size.trans h.size
  byte := by
    intro b hb o ho
    rw [h'.byte b hb o (h.tiers ▸ ho), h.byte b hb o ho]

theorem Keeps.mono (h : p.Keeps q live') (hl : live ⊆ live') : p.Keeps q live :=
  { h with byte := fun b hb => h.byte b (hl hb) }

theorem Follows.trans (h : p.Follows q live) (h' : q.Follows r live) : p.Follows r live where
  toKeeps := h.toKeeps.trans h'.toKeeps
  used := h'.used.trans h.used
  peak := h'.peak.trans h.peak

theorem Follows.mono (h : p.Follows q live') (hl : live ⊆ live') : p.Follows q live :=
  { h with byte := fun b hb => h.byte b (hl hb) }

/-! ### Marks -/

section marks

@[simp] theorem region_withMarks (p : Buddy) (m : Bitmap) : (p.withMarks m).region = p.region := by
  unfold withMarks
  dsimp only

@[simp] theorem tiers_withMarks (p : Buddy) (m : Bitmap) : (p.withMarks m).tiers = p.tiers := by
  unfold withMarks
  dsimp only

@[simp] theorem marks_withMarks (p : Buddy) (m : Bitmap) : (p.withMarks m).marks = m := by
  unfold withMarks
  dsimp only

@[simp] theorem heads_withMarks (p : Buddy) (m : Bitmap) : (p.withMarks m).heads = p.heads := by
  unfold withMarks
  dsimp only

theorem follows_withMarks (p : Buddy) (m : Bitmap) (live : Finset Block) :
    p.Follows (p.withMarks m) live where
  tiers := tiers_withMarks p m
  used := by unfold withMarks; dsimp only
  peak := by unfold withMarks; dsimp only
  size := by rw [region_withMarks]
  byte := by
    intro b hb o ho
    rw [region_withMarks]

theorem Threads.withMarks (h : p.Threads F) (m : Bitmap) : (p.withMarks m).Threads F := by
  apply h.congr (tiers_withMarks p m) (heads_withMarks p m)
  · rw [region_withMarks]
  · intro o _
    rw [region_withMarks]

theorem covers_setBit (hm : p.marks.Covers p.tiers.count) (hb : p.tiers.Holds b) :
    (p.withMarks (p.marks.setBit (2 ^ b.tier + b.index))).marks.Covers
      (p.withMarks (p.marks.setBit (2 ^ b.tier + b.index))).tiers.count := by
  rw [marks_withMarks, tiers_withMarks]
  exact hm.setBit hb.1 hb.2

theorem mark_ok (hm : p.marks.Covers p.tiers.count) (hb : p.tiers.Holds b) :
    mark b p = .ok () (p.withMarks (p.marks.setBit (2 ^ b.tier + b.index))) := by
  rw [mark, Op.get_bind, Op.lift_bind _ (hm.bitOf_ok hb.1 hb.2)]
  unfold Buddy.withMarks
  rfl

theorem unmark_ok (hm : p.marks.Covers p.tiers.count) (hb : p.tiers.Holds b) :
    unmark b p = .ok () (p.withMarks (p.marks.clearBit (2 ^ b.tier + b.index))) := by
  rw [unmark, Op.get_bind, Op.lift_bind _ (hm.bitOf_ok hb.1 hb.2)]
  unfold Buddy.withMarks
  rfl

theorem isMarked_ok (hm : p.marks.Covers p.tiers.count) (hb : p.tiers.Holds b) :
    p.isMarked b = .ok (decide (p.marks.Marked b)) :=
  hm.isMarked_ok hb.1 hb.2

end marks

theorem Relinks.follows {written : Nat → Prop} (hr : p.Relinks q written)
    (hl : ∀ b ∈ live, p.tiers.Holds b)
    (hw : ∀ o, written o → ∃ a, p.tiers.Holds a ∧ a.Vacant live ∧ (p.tiers.span a).Has o) :
    p.Follows q live where
  tiers := hr.tiers
  used := hr.used
  peak := hr.peak
  size := hr.size
  byte := by
    intro b hb o ho
    apply hr.byte
    intro hwo
    obtain ⟨a, ha, hv, hao⟩ := hw o hwo
    exact hv b hb (Tiers.meets_of_has ha.1 (hl b hb).1 hao ho)

namespace Represents

theorem vacant_of_lists (h : p.Represents live F) (ha : F.Lists a) : a.Vacant live :=
  ((h.lists_iff a (h.holds a ha)).1 ha).1

theorem not_lists_buddy (h : p.Represents live F) (hb : F.Lists b) (ht : 0 < b.tier) :
    ¬ F.Lists b.buddy := by
  intro hb'
  have hf := (h.lists_iff b (h.holds b hb)).1 hb
  exact hf.not_buddy ht ((h.lists_iff _ (h.holds _ hb')).1 hb')

theorem isMarked_inUse (h : p.Represents live F) (hb : p.tiers.Holds b) :
    p.isMarked b = .ok (decide (b.InUse live)) := by
  rw [isMarked_ok h.covers hb, decide_eq_decide.2 (h.marked_iff b hb)]

/-! ### Taking a free block -/

theorem take_none (h : p.Represents live F) (ht : tier < p.tiers.count) (hf : F tier = []) :
    take tier p = .ok none p := by
  rw [take, Op.bind_ok _ (h.pop_none ht hf)]
  rfl

theorem take_some (h : p.Represents live F) {i : Nat} {rest : List Nat} (hf : F tier = i :: rest) :
    ∃ q, take tier p = .ok (some ⟨tier, i⟩) q ∧
      q.Represents (insert ⟨tier, i⟩ live) (F.drop ⟨tier, i⟩) ∧ p.Follows q live := by
  have hb := FreeLists.lists_of_cons hf
  have hold := h.holds _ hb
  have hfree := (h.lists_iff _ hold).1 hb
  obtain ⟨p₁, hpop, ht₁, hr⟩ := h.pop_some hf
  have hc : p₁.marks.Covers p₁.tiers.count := by
    rw [hr.marks, hr.tiers]
    exact h.covers
  have hfollows : p.Follows p₁ live := by
    apply hr.follows h.live_holds
    rintro o ⟨a, ha, hao⟩
    exact ⟨a, h.holds a ha, h.vacant_of_lists ha, hao⟩
  refine ⟨p₁.withMarks (p₁.marks.setBit (2 ^ tier + i)), ?_, ?_,
    hfollows.trans (follows_withMarks ..)⟩
  · rw [take, Op.bind_ok _ hpop]
    dsimp only
    rw [Op.bind_ok _ (mark_ok hc (hr.tiers ▸ hold)), Op.pure_apply]
  refine ⟨ht₁.withMarks _, covers_setBit hc (hr.tiers ▸ hold), ?_,
    h.live_apart.insert hfree.1, ?_, ?_⟩
  · rw [tiers_withMarks, hr.tiers]
    intro l hl
    obtain rfl | hl := Finset.mem_insert.1 hl
    · exact hold
    · exact h.live_holds l hl
  · rw [tiers_withMarks, hr.tiers, marks_withMarks]
    intro a ha
    rw [hc.marked_setBit (hr.tiers ▸ hold.1) hold.2 ha.2, hr.marks, h.marked_iff a ha,
      hfree.inUse_insert]
  · rw [tiers_withMarks, hr.tiers]
    intro a ha
    rw [FreeLists.lists_drop (h.nodup tier), h.lists_iff a ha, hfree.free_insert]

/-! ### Releasing a block -/

/-- A released block that does not merge goes to its list. -/
theorem release (h : p.Represents (insert b live) F) (hb : b.Free live) (hc : m.Covers p.tiers.count)
    (hm : ∀ a, p.tiers.Holds a → (m.Marked a ↔ a.InUse (insert b live) ∧ a ≠ b)) :
    ∃ q, push b (p.withMarks m) = .ok () q ∧ q.Represents live (F.push b) ∧ p.Follows q live := by
  have hold : p.tiers.Holds b := h.live_holds b (Finset.mem_insert_self b live)
  have hlive : ∀ l ∈ live, p.tiers.Holds l := fun l hl =>
    h.live_holds l (Finset.mem_insert_of_mem hl)
  have hapart : ∀ a, F.Lists a → ¬ a.Meets b := by
    intro a ha
    exact h.vacant_of_lists ha b (Finset.mem_insert_self b live)
  obtain ⟨q, hpush, ht, hr⟩ := (h.withMarks m).push ((tiers_withMarks p m).symm ▸ hold) hapart
  have htiers : q.tiers = p.tiers := hr.tiers.trans (tiers_withMarks p m)
  have hmarks : q.marks = m := hr.marks.trans (marks_withMarks p m)
  have hfollows : (p.withMarks m).Follows q live := by
    apply hr.follows
    · rw [tiers_withMarks]
      exact hlive
    · rintro o ⟨a, ha, hao⟩
      rw [tiers_withMarks] at hao ⊢
      obtain rfl | ha := FreeLists.lists_push.1 ha
      · exact ⟨_, hold, hb.1, hao⟩
      · exact ⟨a, h.holds a ha, (Block.vacant_insert.1 (h.vacant_of_lists ha)).2, hao⟩
  refine ⟨q, hpush, ⟨ht, ?_, ?_, h.live_apart.mono (Finset.subset_insert b live), ?_, ?_⟩,
    (follows_withMarks p m live).trans hfollows⟩
  · rw [hmarks, htiers]
    exact hc
  · rw [htiers]
    exact hlive
  · rw [htiers, hmarks]
    intro a ha
    have hn : a.InUse live → a ≠ b := by
      rintro hu rfl
      exact hb.1.not_inUse hu
    rw [hm a ha, hb.inUse_insert, or_and_right, and_not_self_iff, or_false]
    exact and_iff_left_of_imp hn
  · rw [htiers]
    intro a ha
    rw [FreeLists.lists_push, h.lists_iff a ha, hb.free_insert]
    by_cases hab : a = b
    · rw [hab]
      exact iff_of_true (.inl rfl) hb
    · rw [eq_false hab, false_or, ne_eq, eq_false hab, not_false_eq_true, and_true]

/-- A released block whose other half is free becomes one block with it. -/
theorem merge (h : p.Represents (insert b live) F) (ht : 0 < b.tier) (hb : b.Vacant live)
    (hv : b.buddy.Vacant live) (hc : m.Covers p.tiers.count)
    (hm : ∀ a, p.tiers.Holds a → (m.Marked a ↔ a.InUse (insert b live) ∧ a ≠ b)) :
    ∃ q, erase b.buddy (p.withMarks m) = .ok () q ∧
      q.Represents (insert b.up live) (F.drop b.buddy) ∧ p.Follows q live := by
  have hold : p.tiers.Holds b := h.live_holds b (Finset.mem_insert_self b live)
  have hlist : F.Lists b.buddy := (h.lists_iff _ (hold.buddy ht)).2 hv.free_buddy
  obtain ⟨q, herase, htr, hr⟩ := (h.withMarks m).erase hlist
  have htiers : q.tiers = p.tiers := hr.tiers.trans (tiers_withMarks p m)
  have hmarks : q.marks = m := hr.marks.trans (marks_withMarks p m)
  have hup : b.up.Vacant live := Block.vacant_up ht hb hv
  have hfollows : (p.withMarks m).Follows q live := by
    apply hr.follows
    · rw [tiers_withMarks]
      exact fun l hl => h.live_holds l (Finset.mem_insert_of_mem hl)
    · rintro o ⟨a, ha, hao⟩
      rw [tiers_withMarks] at hao ⊢
      exact ⟨a, h.holds a ha, (Block.vacant_insert.1 (h.vacant_of_lists ha)).2, hao⟩
  have hapart : Block.Apart live := h.live_apart.mono (Finset.subset_insert b live)
  refine ⟨q, herase, ⟨htr, ?_, ?_, hapart.insert hup, ?_, ?_⟩,
    (follows_withMarks p m live).trans hfollows⟩
  · rw [hmarks, htiers]
    exact hc
  · rw [htiers]
    intro l hl
    obtain rfl | hl := Finset.mem_insert.1 hl
    · exact hold.up ht
    · exact h.live_holds l (Finset.mem_insert_of_mem hl)
  · rw [htiers, hmarks]
    intro a ha
    rw [hm a ha, Block.inUse_merge ht hb hv]
  · rw [htiers]
    intro a ha
    rw [FreeLists.lists_drop (h.nodup _), h.lists_iff a ha, Block.free_merge ht hv]

theorem marked_unmarked (h : p.Represents live F) (hb : p.tiers.Holds b) (a : Block)
    (ha : p.tiers.Holds a) :
    (p.marks.clearBit (2 ^ b.tier + b.index)).Marked a ↔ a.InUse live ∧ a ≠ b := by
  rw [Bitmap.marked_clearBit p.marks hb.2 ha.2, h.marked_iff a ha]

/-- Whether a released block merges is decided by the mark of its buddy. -/
theorem coalesceAt_succ {i : Nat} (h : p.Represents (insert ⟨tier + 1, i⟩ live) F) :
    Buddy.coalesceAt (tier + 1) i p =
      (if decide ((⟨tier + 1, i⟩ : Block).buddy.InUse live) = true then push ⟨tier + 1, i⟩
        else do erase (⟨tier + 1, i⟩ : Block).buddy; Buddy.coalesceAt tier (i / 2) : Op Buddy Unit)
        (p.withMarks (p.marks.clearBit (2 ^ (tier + 1) + i))) := by
  let b : Block := ⟨tier + 1, i⟩
  let p₁ := p.withMarks (p.marks.clearBit (2 ^ b.tier + b.index))
  have hold : p.tiers.Holds b := h.live_holds b (Finset.mem_insert_self b live)
  have hbud : p.tiers.Holds b.buddy := hold.buddy (Nat.succ_pos tier)
  have hmarked : p₁.isMarked b.buddy = .ok (decide (b.buddy.InUse live)) := by
    have hc : p₁.marks.Covers p₁.tiers.count := by
      rw [marks_withMarks, tiers_withMarks]
      exact h.covers.clearBit _
    rw [isMarked_ok hc (by rwa [tiers_withMarks]), marks_withMarks]
    congr 2
    rw [h.marked_unmarked hold _ hbud, Block.inUse_insert, eq_iff_iff]
    have hn := Block.not_within_buddy b
    have hne := Block.buddy_ne b
    tauto
  rw [Buddy.coalesceAt, Op.bind_ok _ (unmark_ok h.covers hold), Op.get_bind,
    Op.lift_bind _ hmarked]

/-- Releasing a block merges it as far up as it can, and ends with the other blocks live. -/
theorem coalesceAt (h : p.Represents (insert b live) F) (hb : b.Vacant live) :
    ∃ q, Buddy.coalesceAt b.tier b.index p = .ok () q ∧
      q.Represents live (F.coalesced b.tier b.index) ∧ p.Follows q live := by
  obtain ⟨tier, i⟩ := b
  induction tier generalizing p F i with
  | zero =>
    let b : Block := ⟨0, i⟩
    have hold : p.tiers.Holds b := h.live_holds b (Finset.mem_insert_self b live)
    have hfree : b.Free live := hb.free fun ht => absurd ht (Nat.lt_irrefl 0)
    obtain ⟨q, hq, hrest⟩ := h.release hfree (h.covers.clearBit _) (h.marked_unmarked hold)
    refine ⟨q, ?_, hrest⟩
    rw [Buddy.coalesceAt, Op.bind_ok _ (unmark_ok h.covers hold)]
    exact hq
  | succ tier ih =>
    let b : Block := ⟨tier + 1, i⟩
    have hold : p.tiers.Holds b := h.live_holds b (Finset.mem_insert_self b live)
    have hm := h.marked_unmarked hold
    by_cases hu : b.buddy.InUse live
    · have hfree : b.Free live := hb.free fun _ => hu
      have hnl : ¬ F.Lists b.buddy := by
        intro hl
        exact (Block.vacant_insert.1 (h.vacant_of_lists hl)).2.not_inUse hu
      obtain ⟨q, hq, hrest⟩ := h.release hfree (h.covers.clearBit _) hm
      refine ⟨q, ?_, ?_⟩
      · rw [h.coalesceAt_succ, if_pos (decide_eq_true hu)]
        exact hq
      · rw [FreeLists.coalesced_stop hnl]
        exact hrest
    · -- A buddy that is not in use is vacant with the released block, hence on its list.
      have hv := hb.buddy (Nat.succ_pos tier) hu
      have hl : F.Lists b.buddy := (h.lists_iff _ (hold.buddy (Nat.succ_pos tier))).2 hv.free_buddy
      obtain ⟨p₂, hp₂, hr₂, hf₂⟩ := h.merge (Nat.succ_pos tier) hb hv (h.covers.clearBit _) hm
      have hup : b.up.Vacant live := Block.vacant_up (Nat.succ_pos tier) hb hv
      obtain ⟨q, hq, hrest, hf⟩ := ih (i / 2) hr₂ hup
      refine ⟨q, ?_, ?_, hf₂.trans hf⟩
      · rw [h.coalesceAt_succ, if_neg (by rwa [decide_eq_true_iff]), Op.bind_ok _ hp₂]
        exact hq
      · rw [FreeLists.coalesced_merge hl]
        exact hrest

/-! ### Splitting a block -/

theorem marked_marked (h : p.Represents live F) (hb : p.tiers.Holds b) (a : Block)
    (ha : p.tiers.Holds a) :
    (p.marks.setBit (2 ^ b.tier + b.index)).Marked a ↔ a.InUse live ∨ a = b := by
  rw [h.covers.marked_setBit hb.1 hb.2 ha.2, h.marked_iff a ha]

/-- A block whose halves were marked stands for two live blocks. -/
theorem halved (h : p.Represents (insert b live) F) (ht : b.tier + 1 < p.tiers.count)
    (hb : b.Vacant live) :
    let p₁ := p.withMarks (p.marks.setBit (2 ^ b.leftChild.tier + b.leftChild.index))
    (p₁.withMarks
      (p₁.marks.setBit (2 ^ b.leftChild.buddy.tier + b.leftChild.buddy.index))).Represents
      (insert b.leftChild.buddy (insert b.leftChild live)) F := by
  intro p₁
  have hpos : 0 < b.leftChild.tier := Nat.succ_pos b.tier
  have hold₁ : p.tiers.Holds b.leftChild :=
    (h.live_holds b (Finset.mem_insert_self b live)).leftChild ht
  have hold₂ : p.tiers.Holds b.leftChild.buddy := hold₁.buddy hpos
  have hv₁ : b.leftChild.Vacant live := hb.within (Block.leftChild_within b)
  have hc₁ : p₁.marks.Covers p₁.tiers.count := covers_setBit h.covers hold₁
  refine ⟨(h.withMarks _).withMarks _,
    covers_setBit hc₁ ((tiers_withMarks p _).symm ▸ hold₂), ?_, ?_, ?_, ?_⟩
  · rw [tiers_withMarks, tiers_withMarks]
    intro l hl
    obtain rfl | hl := Finset.mem_insert.1 hl
    · exact hold₂
    · obtain rfl | hl := Finset.mem_insert.1 hl
      · exact hold₁
      · exact h.live_holds l (Finset.mem_insert_of_mem hl)
  · exact ((h.live_apart.mono (Finset.subset_insert b live)).insert hv₁).insert hb.rightChild_insert
  · rw [tiers_withMarks, tiers_withMarks]
    intro a ha
    rw [marks_withMarks, hc₁.marked_setBit ((tiers_withMarks p _).symm ▸ hold₂.1) hold₂.2 ha.2,
      marks_withMarks, h.marked_marked hold₁ a ha, Finset.insert_comm,
      Block.inUse_split hpos, Block.up_leftChild, or_assoc]
  · rw [tiers_withMarks, tiers_withMarks]
    intro a ha
    rw [h.lists_iff a ha, Finset.insert_comm, Block.free_split hpos, Block.up_leftChild]

/-- A split block leaves its first half live and its second half free. -/
theorem split (h : p.Represents (insert b live) F) (ht : b.tier + 1 < p.tiers.count)
    (hb : b.Vacant live) :
    ∃ p₁ p₂ q, mark b.leftChild p = .ok () p₁ ∧ mark b.leftChild.buddy p₁ = .ok () p₂ ∧
      coalesce b.leftChild.buddy p₂ = .ok () q ∧
      q.Represents (insert b.leftChild live) (F.push b.leftChild.buddy) ∧ p.Follows q live := by
  let first := b.leftChild
  have hold₁ : p.tiers.Holds first :=
    (h.live_holds b (Finset.mem_insert_self b live)).leftChild ht
  have hold₂ : p.tiers.Holds first.buddy := hold₁.buddy (Nat.succ_pos b.tier)
  let p₁ := p.withMarks (p.marks.setBit (2 ^ first.tier + first.index))
  let p₂ := p₁.withMarks (p₁.marks.setBit (2 ^ first.buddy.tier + first.buddy.index))
  have hc₁ : p₁.marks.Covers p₁.tiers.count := covers_setBit h.covers hold₁
  have hfollows : p.Follows p₂ live :=
    (follows_withMarks p _ live).trans (follows_withMarks p₁ _ live)
  have h₂ : p₂.Represents (insert first.buddy (insert first live)) F := h.halved ht hb
  obtain ⟨q, hq, hr, hf⟩ := h₂.coalesceAt hb.rightChild_insert
  -- The second half does not merge, since the first one is in use.
  have hnl : ¬ F.Lists first.buddy.buddy := by
    rw [Block.buddy_buddy]
    intro hl
    exact h₂.vacant_of_lists hl first
      (Finset.mem_insert_of_mem (Finset.mem_insert_self first live)) (.refl first)
  have hstop : F.coalesced first.buddy.tier first.buddy.index = F.push first.buddy :=
    FreeLists.coalesced_stop hnl
  rw [hstop] at hr
  exact ⟨p₁, p₂, q, mark_ok h.covers hold₁, mark_ok hc₁ ((tiers_withMarks p _).symm ▸ hold₂), hq,
    hr, hfollows.trans (hf.mono (Finset.subset_insert first live))⟩

theorem carve_none (h : p.Represents live F) (ht : tier < p.tiers.count)
    (hc : F.carved tier = none) : carve tier p = .ok none p := by
  have hnil := FreeLists.carved_eq_none.1 hc
  clear hc
  induction tier with
  | zero => exact h.take_none ht (hnil 0 (Nat.le_refl 0))
  | succ tier ih =>
    have hrest := ih (Nat.lt_of_succ_lt ht) fun s hs => hnil s (Nat.le_succ_of_le hs)
    rw [carve, Op.bind_ok _ (h.take_none ht (hnil _ (Nat.le_refl _)))]
    dsimp only
    rw [Op.bind_ok _ hrest]
    rfl

/-- A block of a tier is taken from its list, or split off a larger block. -/
theorem carve_some (h : p.Represents live F) (ht : tier < p.tiers.count) {i : Nat}
    (hc : F.carved tier = some (i, G)) :
    ∃ q, carve tier p = .ok (some ⟨tier, i⟩) q ∧ q.Represents (insert ⟨tier, i⟩ live) G ∧
      (⟨tier, i⟩ : Block).Vacant live ∧ p.Follows q live := by
  induction tier generalizing i G with
  | zero =>
    cases hf : F 0 with
    | nil =>
      rw [FreeLists.carved, hf] at hc
      cases hc
    | cons index rest =>
      rw [FreeLists.carved, hf] at hc
      cases hc
      obtain ⟨q, hq, hr, hfol⟩ := h.take_some hf
      exact ⟨q, hq, hr, h.vacant_of_lists (FreeLists.lists_of_cons hf), hfol⟩
  | succ tier ih =>
    cases hf : F (tier + 1) with
    | cons index rest =>
      rw [FreeLists.carved, hf] at hc
      cases hc
      obtain ⟨q, hq, hr, hfol⟩ := h.take_some hf
      refine ⟨q, ?_, hr, h.vacant_of_lists (FreeLists.lists_of_cons hf), hfol⟩
      rw [carve, Op.bind_ok _ hq]
      rfl
    | nil =>
      rw [FreeLists.carved, hf] at hc
      cases hG : F.carved tier with
      | none =>
        rw [hG] at hc
        cases hc
      | some whole =>
        obtain ⟨index, G'⟩ := whole
        rw [hG] at hc
        cases hc
        obtain ⟨p₁, hp₁, hr₁, hv, hf₁⟩ := ih (Nat.lt_of_succ_lt ht) hG
        obtain ⟨p₂, p₃, q, hp₂, hp₃, hq, hr, hf₂⟩ :=
          hr₁.split (by rw [hf₁.tiers]; exact ht) hv
        refine ⟨q, ?_, ?_, hv.within (Block.leftChild_within _), hf₁.trans hf₂⟩
        · rw [carve, Op.bind_ok _ (h.take_none ht hf)]
          dsimp only
          rw [Op.bind_ok _ hp₁]
          dsimp only
          rw [Op.bind_ok _ hp₂, Op.bind_ok _ hp₃, Op.bind_ok _ hq]
          rfl
        · have hsecond : (⟨tier, index⟩ : Block).leftChild.buddy = ⟨tier + 1, 2 * index + 1⟩ :=
            congrArg (Block.mk (tier + 1)) (Block.index_rightChild ⟨tier, index⟩)
          rw [hsecond] at hr
          exact hr

/-- While a block of a tier is vacant, one is handed out. -/
theorem exists_carved (h : p.Represents live F) (hb : p.tiers.Holds b) (hv : b.Vacant live) :
    ∃ i G, F.carved b.tier = some (i, G) := by
  cases hc : F.carved b.tier with
  | some whole => exact ⟨whole.1, whole.2, rfl⟩
  | none =>
    obtain ⟨f, hf, hw⟩ := hv.exists_free
    have hl : f.index ∈ F f.tier := (h.lists_iff f (hb.within hw)).2 hf
    rw [FreeLists.carved_eq_none.1 hc f.tier hw.1] at hl
    exact absurd hl List.not_mem_nil

theorem congr (h : p.Represents live F) (ht : q.tiers = p.tiers) (hm : q.marks = p.marks)
    (hh : q.heads = p.heads) (hs : q.region.size = p.region.size)
    (hb : ∀ o, p.Listed F o → q.region.byte o = p.region.byte o) : q.Represents live F where
  toThreads := h.toThreads.congr ht hh hs hb
  covers := by rw [ht, hm]; exact h.covers
  live_holds := by rw [ht]; exact h.live_holds
  live_apart := h.live_apart
  marked_iff := by rw [ht, hm]; exact h.marked_iff
  lists_iff := by rw [ht]; exact h.lists_iff

end Represents

end Buddy

end FixedPool
