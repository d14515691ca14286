import FixedPool.Proofs.Buddy.Contract
import Mathlib.Order.Lattice.Nat

/-!
Which block is handed out for a tier, and what becomes of a released one. Between the block and the
one that it was split off, or that it merges to, there is one block in each tier; the lists and the
marks change along this path and nowhere else.
-/

namespace FixedPool

namespace FreeLists

/-- The first listed block of tier `s` was split down to a block that begins with it. Each split put
the second half on its list. -/
structure Splits (F : FreeLists) (s : Nat) (b : Block) (G : FreeLists) : Prop where
  taken : F s = (b.ancestor s).index :: G s
  first : ∀ k, s ≤ k → k < b.tier → b.ancestor (k + 1) = (b.ancestor k).leftChild
  second : ∀ k, s ≤ k → k < b.tier → G (k + 1) = [(b.ancestor k).leftChild.buddy.index]
  other : ∀ k, k < s ∨ b.tier < k → G k = F k

/-- A released block was merged up to its ancestor of tier `s`. Each merge took the buddy out of its
list, wherever it stood there. -/
structure Merges (F : FreeLists) (s : Nat) (b : Block) (G : FreeLists) : Prop where
  removed : ∀ k, s < k → k ≤ b.tier → ∃ xs ys,
    F k = xs ++ (b.ancestor k).buddy.index :: ys ∧ G k = xs ++ ys
  pushed : G s = (b.ancestor s).index :: F s
  other : ∀ k, k < s ∨ b.tier < k → G k = F k

/-- The tiers at which a released block cannot merge any further: that of the root block, and those
where the buddy of the block's ancestor is not free. -/
def stops (F : FreeLists) (b : Block) : Set Nat :=
  {s | s ≤ b.tier ∧ (s = 0 ∨ ¬ F.Lists (b.ancestor s).buddy)}

variable {F G : FreeLists} {b : Block} {s t i : Nat} {rest : List Nat}

/-! ### The lists after splits -/

theorem carved_of_cons (hf : F t = i :: rest) : F.carved t = some (i, F.drop ⟨t, i⟩) := by
  cases t with
  | zero => rw [carved, hf]
  | succ t => rw [carved, hf]

theorem carved_of_nil (hf : F (t + 1) = []) (hc : F.carved t = some (i, G)) :
    F.carved (t + 1) = some (2 * i, G.push ⟨t + 1, 2 * i + 1⟩) := by
  rw [carved, hf, hc]

theorem splits_of_cons (hf : F s = i :: rest) : F.Splits s ⟨s, i⟩ (F.drop ⟨s, i⟩) where
  taken := by
    rw [Block.ancestor_self ⟨s, i⟩, drop, Function.update_self, hf, List.erase_cons_head]
  first := fun k hs hk => absurd hk (Nat.not_lt_of_ge hs)
  second := fun k hs hk => absurd hk (Nat.not_lt_of_ge hs)
  other := by
    intro k hk
    have hk : k < s ∨ s < k := hk
    exact drop_of_ne F (hk.elim Nat.ne_of_lt Nat.ne_of_gt)

theorem Splits.leftChild (h : F.Splits s b G) (hs : s ≤ b.tier) (hf : F (b.tier + 1) = []) :
    F.Splits s b.leftChild (G.push b.leftChild.buddy) where
  taken := by
    rw [Block.ancestor_leftChild hs, push_of_ne G (Nat.ne_of_lt (Nat.lt_succ_of_le hs))]
    exact h.taken
  first := by
    intro k hk hlt
    obtain hlt | rfl := Nat.lt_succ_iff_lt_or_eq.1 hlt
    · rw [Block.ancestor_leftChild hlt, Block.ancestor_leftChild (Nat.le_of_lt hlt)]
      exact h.first k hk hlt
    · rw [Block.ancestor_leftChild (Nat.le_refl _), Block.ancestor_self]
      exact Block.ancestor_self b.leftChild
  second := by
    intro k hk hlt
    obtain hlt | rfl := Nat.lt_succ_iff_lt_or_eq.1 hlt
    · rw [Block.ancestor_leftChild (Nat.le_of_lt hlt),
        push_of_ne G (Nat.ne_of_lt (Nat.succ_lt_succ hlt))]
      exact h.second k hk hlt
    · have hG : G (b.tier + 1) = [] := (h.other _ (.inr (Nat.lt_succ_self _))).trans hf
      rw [Block.ancestor_leftChild (Nat.le_refl _), Block.ancestor_self, ← hG]
      exact push_self G b.leftChild.buddy
  other := by
    intro k hk
    have hk : k < s ∨ b.tier + 1 < k := hk
    have hne : k ≠ b.tier + 1 := by omega
    rw [push_of_ne G hne]
    exact h.other k (by omega)

/-- The block that is handed out begins with the first one of the nearest list that is not empty. -/
theorem carved_splits (hs : s ≤ t) (hf : F s = i :: rest) (hn : ∀ k, s < k → k ≤ t → F k = []) :
    ∃ b G, b.tier = t ∧ F.carved t = some (b.index, G) ∧ F.Splits s b G := by
  induction t, hs using Nat.le_induction with
  | base => exact ⟨⟨s, i⟩, _, rfl, carved_of_cons hf, splits_of_cons hf⟩
  | succ t hs ih =>
    obtain ⟨b, G, rfl, hc, hsplit⟩ := ih fun k hk hkt => hn k hk (Nat.le_succ_of_le hkt)
    have hnil : F (b.tier + 1) = [] := hn _ (Nat.lt_succ_of_le hs) (Nat.le_refl _)
    have hsecond : b.leftChild.buddy = ⟨b.tier + 1, 2 * b.index + 1⟩ :=
      congrArg (Block.mk (b.tier + 1)) (Block.index_rightChild b)
    refine ⟨b.leftChild, G.push b.leftChild.buddy, rfl, ?_, hsplit.leftChild hs hnil⟩
    rw [hsecond]
    exact carved_of_nil hnil hc

/-! ### The lists after merges -/

theorem exists_isGreatest_stops (F : FreeLists) (b : Block) : ∃ s, IsGreatest (F.stops b) s := by
  have hb : BddAbove (F.stops b) := ⟨b.tier, fun _ hs => hs.1⟩
  exact ⟨_, Nat.sSup_mem ⟨0, Nat.zero_le _, .inl rfl⟩ hb, fun _ hs => le_csSup hb hs⟩

theorem merges_push (F : FreeLists) (b : Block) : F.Merges b.tier b (F.push b) where
  removed := fun k hs hk => absurd hk (Nat.not_le_of_gt hs)
  pushed := by
    rw [Block.ancestor_self]
    exact push_self F b
  other := by
    intro k hk
    exact push_of_ne F (by omega)

theorem Merges.of_up (h : (F.drop b.buddy).Merges s b.up G) (hn : (F b.tier).Nodup)
    (hl : F.Lists b.buddy) (hs : s < b.tier) : F.Merges s b G where
  removed := by
    intro k hk hkb
    obtain hlt | rfl := Nat.lt_or_eq_of_le hkb
    · obtain ⟨xs, ys, hF, hG⟩ := h.removed k hk (Nat.le_sub_one_of_lt hlt)
      have hne : k ≠ b.buddy.tier := Nat.ne_of_lt hlt
      rw [drop_of_ne F hne, Block.ancestor_up hlt] at hF
      exact ⟨xs, ys, hF, hG⟩
    · obtain ⟨xs, ys, hF⟩ := List.append_of_mem hl
      refine ⟨xs, ys, ?_, ?_⟩
      · rw [Block.ancestor_self]
        exact hF
      · rw [h.other b.tier (.inr (Nat.sub_one_lt_of_lt hs))]
        exact drop_self hn hF
  pushed := by
    have hne : s ≠ b.buddy.tier := Nat.ne_of_lt hs
    rw [h.pushed, drop_of_ne F hne, Block.ancestor_up hs]
  other := by
    intro k hk
    have hne : k ≠ b.buddy.tier := by
      rw [Block.tier_buddy]
      omega
    rw [← drop_of_ne F hne]
    exact h.other k (hk.imp_right fun hlt => Nat.lt_of_le_of_lt (Nat.sub_le _ 1) hlt)

theorem coalesced_merges (hn : ∀ k, (F k).Nodup) (hs : IsGreatest (F.stops b) s) :
    F.Merges s b (F.coalesced b.tier b.index) := by
  obtain ⟨⟨hle, hstop⟩, hub⟩ := hs
  have hm : ∀ k, s < k → k ≤ b.tier → F.Lists (b.ancestor k).buddy := by
    intro k hk hkb
    by_contra hnl
    exact Nat.not_le_of_gt hk (hub ⟨hkb, .inr hnl⟩)
  clear hub
  obtain ⟨tier, i⟩ := b
  induction tier generalizing F i with
  | zero =>
    obtain rfl := Nat.le_zero.1 hle
    exact merges_push F ⟨0, i⟩
  | succ tier ih =>
    let b : Block := ⟨tier + 1, i⟩
    obtain rfl | hlt := Nat.eq_or_lt_of_le hle
    · have hnl : ¬ F.Lists b.buddy := by
        rw [← b.ancestor_self]
        exact hstop.resolve_left (Nat.succ_ne_zero tier)
      rw [coalesced_stop hnl]
      exact merges_push F b
    · have hl : F.Lists b.buddy := by
        rw [← b.ancestor_self]
        exact hm _ hlt (Nat.le_refl _)
      -- The lists of the tiers above are still the old ones.
      have hsame : ∀ k, k ≤ tier → ((F.drop b.buddy).Lists (b.up.ancestor k).buddy ↔
          F.Lists (b.ancestor k).buddy) := by
        intro k hk
        have hne : (b.ancestor k).buddy.tier ≠ b.buddy.tier := Nat.ne_of_lt (Nat.lt_succ_of_le hk)
        rw [Block.ancestor_up (Nat.lt_succ_of_le hk), Lists, Lists, drop_of_ne F hne]
      rw [coalesced_merge hl]
      refine Merges.of_up (b := b) ?_ (hn _) hl hlt
      apply ih (nodup_drop hn _)
      · exact Nat.le_of_lt_succ hlt
      · exact hstop.imp_right fun hnl => mt (hsame s (Nat.le_of_lt_succ hlt)).1 hnl
      · intro k hk hkt
        exact (hsame k hkt).2 (hm k hk (Nat.le_succ_of_le hkt))

end FreeLists

namespace Buddy

/-- The links of the tiers lead over these lists. -/
def HasFreeLists (p : Buddy) (F : FreeLists) : Prop :=
  ∀ tier < p.tiers.count, p.HasFreeList tier (F tier)

/-- The ancestors of a block from tier `s` down to the block itself are marked in the second state
and not in the first one. All other marks are the same. -/
structure MarksPath (p : Buddy) (s : Nat) (b : Block) (q : Buddy) : Prop where
  path : ∀ k, s ≤ k → k ≤ b.tier →
    p.isMarked (b.ancestor k) = .ok false ∧ q.isMarked (b.ancestor k) = .ok true
  other : ∀ a, p.tiers.Holds a → (∀ k, s ≤ k → k ≤ b.tier → a ≠ b.ancestor k) →
    q.isMarked a = p.isMarked a

/-- A block was handed out that begins where the first listed block of tier `s` does. -/
structure Carves (p : Buddy) (F : FreeLists) (s : Nat) (b : Block) (q : Buddy) : Prop where
  tiers : q.tiers = p.tiers
  begins : ∀ k, s ≤ k → k ≤ b.tier →
    p.tiers.offset (b.ancestor k) = p.tiers.offset (b.ancestor s)
  lists : ∃ G, q.HasFreeLists G ∧ F.Splits s b G
  marks : p.MarksPath s b q

/-- A block was released and merged up to its ancestor of tier `s`. -/
structure Retires (p : Buddy) (F : FreeLists) (s : Nat) (b : Block) (q : Buddy) : Prop where
  tiers : q.tiers = p.tiers
  lists : ∃ G, q.HasFreeLists G ∧ F.Merges s b G
  marks : q.MarksPath s b p
  used : q.used + p.tiers.extent b.tier = p.used

variable {p q : Buddy} {live : Finset Block} {held : Finset Span} {F G : FreeLists} {b : Block}
  {s t : Nat} {host : Host} {request : Nat} {xs ys : List Nat} {before next : Option Nat}

/-- The links of a tier lead over one list only. -/
theorem Visits.unique (h : p.Visits t before next xs) (h' : p.Visits t before next ys) :
    xs = ys := by
  induction xs generalizing before next ys with
  | nil =>
    cases ys with
    | nil => rfl
    | cons j ys => cases h.symm.trans h'.1
  | cons i xs ih =>
    cases ys with
    | nil => cases h.1.symm.trans h'
    | cons j ys =>
      obtain ⟨hi, behind, hl, hv⟩ := h
      obtain ⟨hj, behind', hl', hv'⟩ := h'
      cases hi.symm.trans hj
      cases hl.symm.trans hl'
      rw [ih hv hv']

theorem HasFreeList.unique (h : p.HasFreeList t xs) (h' : p.HasFreeList t ys) : xs = ys := by
  obtain ⟨first, hf, hv⟩ := h
  obtain ⟨first', hf', hv'⟩ := h'
  cases hf.symm.trans hf'
  exact hv.unique hv'

theorem Threads.hasFreeLists (h : p.Threads F) : p.HasFreeLists F :=
  fun _ ht => h.hasFreeList ht

theorem Represents.marksPath (hp : p.Represents live F) (hq : q.Represents (insert b live) G)
    (ht : q.tiers = p.tiers) (hs : s ≤ b.tier) (hf : (b.ancestor s).Free live) :
    p.MarksPath s b q where
  path := by
    intro k hk hkb
    have hb : q.tiers.Holds b := hq.live_holds b (Finset.mem_insert_self b live)
    have hw := Block.within_ancestor hkb
    have hold := hb.within hw
    have hnot : ¬ (b.ancestor k).InUse live :=
      hf.not_inUse_of_within (Block.within_ancestor hs) hk hw
    have hin : (b.ancestor k).InUse (insert b live) := ⟨b, Finset.mem_insert_self b live, hw⟩
    constructor
    · rw [hp.isMarked_inUse (ht ▸ hold), decide_eq_false hnot]
    · rw [hq.isMarked_inUse hold, decide_eq_true hin]
  other := by
    intro a ha hne
    have hnot : ¬ (s ≤ a.tier ∧ b.Within a) := fun ⟨hsa, hw⟩ => hne a.tier hsa hw.1 hw.eq_ancestor
    rw [hp.isMarked_inUse ha, hq.isMarked_inUse (ht ▸ ha), decide_eq_decide.2]
    rw [hf.inUse_insert_within (Block.within_ancestor hs)]
    exact or_iff_left hnot

/-! ### Handing out a block -/

/-- The first halves of a block begin where it does. -/
theorem offset_ancestor (h : F.Splits s b G) (hb : b.tier < p.tiers.count) {k : Nat} (hk : s ≤ k)
    (hkb : k ≤ b.tier) : p.tiers.offset (b.ancestor k) = p.tiers.offset (b.ancestor s) := by
  induction k, hk using Nat.le_induction with
  | base => rfl
  | succ k hk ih =>
    have hlt : (b.ancestor k).tier + 1 < p.tiers.count := Nat.lt_of_le_of_lt hkb hb
    rw [h.first k hk hkb, Tiers.offset_leftChild hlt]
    exact ih (Nat.le_of_succ_le hkb)

theorem Represents.carves (h : p.Represents live F) (ht : t < p.tiers.count)
    (hs : IsGreatest {k | k ≤ t ∧ F k ≠ []} s) :
    ∃ b q, carve t p = .ok (some b) q ∧ b.tier = t ∧ p.Carves F s b q := by
  obtain ⟨⟨hst, hne⟩, hub⟩ := hs
  obtain ⟨i, rest, hf⟩ := List.exists_cons_of_ne_nil hne
  have hnil : ∀ k, s < k → k ≤ t → F k = [] := by
    intro k hk hkt
    by_contra hn
    exact Nat.not_le_of_gt hk (hub ⟨hkt, hn⟩)
  obtain ⟨b, G, rfl, hc, hsplit⟩ := FreeLists.carved_splits hst hf hnil
  obtain ⟨q, hrun, hq, -, hfol⟩ := h.carve_some ht hc
  have hlist : F.Lists (b.ancestor s) := FreeLists.lists_of_cons hsplit.taken
  have hfree := (h.lists_iff _ (h.holds _ hlist)).1 hlist
  exact ⟨b, q, hrun, rfl, hfol.tiers, fun k => offset_ancestor hsplit ht,
    ⟨G, hq.hasFreeLists, hsplit⟩, h.marksPath hq hfol.tiers hst hfree⟩

/-- A block of a tier is taken from the nearest list at this tier or above that is not empty; if
there is none, nothing is handed out. -/
theorem Reachable.carves_nearest (h : Reachable host request p held) (ht : t < p.tiers.count) :
    ∃ F, p.HasFreeLists F ∧ ((∀ k ≤ t, F k = []) → carve t p = .ok none p) ∧
      ∀ s, IsGreatest {k | k ≤ t ∧ F k ≠ []} s →
        ∃ b q, carve t p = .ok (some b) q ∧ b.tier = t ∧ p.Carves F s b q := by
  obtain ⟨live, F, hs, -⟩ := h.sound
  refine ⟨F, hs.hasFreeLists, ?_, ?_⟩
  · intro hnil
    exact hs.carve_none ht (FreeLists.carved_eq_none.2 hnil)
  · intro s hgreatest
    exact hs.carves ht hgreatest

/-- A quarter of a new pool of 64 bytes is split off its root block. -/
theorem carves_nearest_root : ∃ p held F b q, Reachable ⟨fun _ => true⟩ 64 p held ∧
    p.HasFreeLists F ∧ F 0 = [0] ∧ F 1 = [] ∧ F 2 = [] ∧ carve 2 p = .ok (some b) q ∧
    b.tier = 2 ∧ p.Carves F 0 b q := by
  have h : Reachable ⟨fun _ => true⟩ 64 _ _ := .created rfl
  obtain ⟨F, hF, -, hsome⟩ := h.carves_nearest (t := 2) (by decide)
  have h₀ : F 0 = [0] := (hF 0 (by decide)).unique ⟨some 0, rfl, rfl, none, rfl, rfl⟩
  have h₁ : F 1 = [] := (hF 1 (by decide)).unique ⟨none, rfl, rfl⟩
  have h₂ : F 2 = [] := (hF 2 (by decide)).unique ⟨none, rfl, rfl⟩
  have hs : IsGreatest {k | k ≤ 2 ∧ F k ≠ []} 0 := by
    refine ⟨⟨Nat.zero_le 2, h₀ ▸ List.cons_ne_nil _ _⟩, ?_⟩
    rintro k ⟨hk, hne⟩
    obtain rfl | rfl | rfl : k = 0 ∨ k = 1 ∨ k = 2 := by omega
    · exact Nat.le_refl 0
    · exact absurd h₁ hne
    · exact absurd h₂ hne
  obtain ⟨b, q, hrun, hb, hq⟩ := hsome 0 hs
  exact ⟨_, _, F, b, q, h, hF, h₀, h₁, h₂, hrun, hb, hq⟩

/-! ### Releasing a block -/

theorem Sound.retires (h : p.Sound live F) (hb : b ∈ live) (hs : IsGreatest (F.stops b) s) :
    ∃ q, free (p.tiers.offset b) p = .ok () q ∧ p.Retires F s b q := by
  obtain ⟨q, hrun, hq, hk, -⟩ := h.free_coalesced hb
  have hmerge := FreeLists.coalesced_merges h.nodup hs
  have hle : s ≤ b.tier := hs.1.1
  have hlist : (F.coalesced b.tier b.index).Lists (b.ancestor s) :=
    FreeLists.lists_of_cons hmerge.pushed
  have hfree := (hq.lists_iff _ (hq.holds _ hlist)).1 hlist
  have hp : p.Represents (insert b (live.erase b)) F := by
    rw [Finset.insert_erase hb]
    exact h.toRepresents
  refine ⟨q, hrun, hk.tiers, ⟨_, hq.hasFreeLists, hmerge⟩,
    hq.marksPath hp hk.tiers.symm hle hfree, ?_⟩
  rw [hq.used_eq, h.used_eq, hk.tiers]
  exact Finset.sum_erase_add live (fun l => p.tiers.extent l.tier) hb

/-- A released block merges with its buddy, and so on with its ancestors, up to the first one whose
buddy is not free. A hint makes no difference. -/
theorem Reachable.retires_merged (h : Reachable host request p held) (hb : p.tiers.Holds b)
    (hs : p.tiers.span b ∈ held) :
    ∃ F, p.HasFreeLists F ∧ ∃ s q, IsGreatest (F.stops b) s ∧
      free (p.tiers.offset b) p = .ok () q ∧
      (∀ hint, dealloc (p.tiers.offset b) hint p = .ok () q) ∧ p.Retires F s b q := by
  obtain ⟨live, F, hsound, rfl⟩ := h.sound
  obtain ⟨l, hl, he⟩ := mem_spans.1 hs
  obtain rfl := Tiers.span_inj (hsound.live_holds l hl).1 hb.1 he
  obtain ⟨s, hgreatest⟩ := FreeLists.exists_isGreatest_stops F l
  obtain ⟨q, hrun, hq⟩ := hsound.retires hl hgreatest
  refine ⟨F, hsound.hasFreeLists, s, q, hgreatest, hrun, ?_, hq⟩
  intro hint
  exact (hsound.dealloc_eq hl hint).trans hrun

/-- The only quarter that is held in a pool of 64 bytes merges up to the root block. -/
theorem retires_merged_root : ∃ p held F q, Reachable ⟨fun _ => true⟩ 64 p held ∧
    held = {⟨0, 16⟩} ∧ p.HasFreeLists F ∧ F 1 = [1] ∧ F 2 = [1] ∧ free 0 p = .ok () q ∧
    p.Retires F 0 ⟨2, 0⟩ q := by
  have h₀ : Reachable ⟨fun _ => true⟩ 64 _ _ := .created rfl
  have h := h₀.returned (.alloc 10) (by set_option maxRecDepth 100000 in rfl)
  obtain ⟨F, hF, s, q, hs, hrun, -, hq⟩ := h.retires_merged (b := ⟨2, 0⟩) (by decide) (by decide)
  have h₁ : F 1 = [1] := (hF 1 (by decide)).unique
    ⟨some 1, rfl, rfl, none, by set_option maxRecDepth 100000 in rfl, rfl⟩
  have h₂ : F 2 = [1] := (hF 2 (by decide)).unique
    ⟨some 1, rfl, rfl, none, by set_option maxRecDepth 100000 in rfl, rfl⟩
  -- The buddies of the quarter and of its half are both free, so that only the root is left.
  have hl₁ : F.Lists ⟨1, 1⟩ := FreeLists.lists_of_cons h₁
  have hl₂ : F.Lists ⟨2, 1⟩ := FreeLists.lists_of_cons h₂
  obtain rfl : s = 0 := by
    obtain ⟨hle, hz | hn⟩ := hs.1
    · exact hz
    · obtain rfl | rfl | rfl : s = 0 ∨ s = 1 ∨ s = 2 := by
        change s ≤ 2 at hle
        omega
      · rfl
      · exact absurd hl₁ hn
      · exact absurd hl₂ hn
  exact ⟨_, _, F, q, h, by decide, hF, h₁, h₂, hrun, hq⟩

end Buddy

end FixedPool
