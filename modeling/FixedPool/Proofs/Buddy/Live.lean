import FixedPool.Proofs.Buddy.Represents
import Mathlib.Algebra.BigOperators.Group.Finset.Basic
import Mathlib.Algebra.Order.BigOperators.Group.Finset
import Mathlib.Order.Interval.Finset.Nat

/-!
Finding live blocks again: whether a block is live can be read off its mark and those of its halves,
and an address off the smallest marked block that begins there. The bytes in use are those of the
live blocks.
-/

namespace FixedPool

/-- Blocks that have nothing in common take no more bytes than there are. -/
theorem Tiers.sum_extent_le {t : Tiers} {live : Finset Block} (hw : t.WellFormed)
    (hl : ∀ b ∈ live, t.Holds b) (ha : Block.Apart live) :
    ∑ b ∈ live, t.extent b.tier ≤ t.capacity := by
  let bytes : Block → Finset Nat := fun b => Finset.Ico (t.offset b) (t.offset b + t.extent b.tier)
  have hd : ∀ b ∈ live, ∀ c ∈ live, b ≠ c → Disjoint (bytes b) (bytes c) := by
    intro b hb c hc hne
    rw [Finset.disjoint_left]
    intro o hob hoc
    exact hne (ha b hb c hc (Tiers.meets_of_has (hl b hb).1 (hl c hc).1
      (Finset.mem_Ico.1 hob) (Finset.mem_Ico.1 hoc)))
  have hsub : live.biUnion bytes ⊆ Finset.range t.capacity := by
    intro o ho
    obtain ⟨b, hb, hob⟩ := Finset.mem_biUnion.1 ho
    exact Finset.mem_range.2
      (Nat.lt_of_lt_of_le (Finset.mem_Ico.1 hob).2 ((hl b hb).end_le hw))
  calc ∑ b ∈ live, t.extent b.tier
      = ∑ b ∈ live, (bytes b).card := by
        apply Finset.sum_congr rfl
        intro b _
        rw [Nat.card_Ico, Nat.add_sub_cancel_left]
    _ = (live.biUnion bytes).card := (Finset.card_biUnion hd).symm
    _ ≤ (Finset.range t.capacity).card := Finset.card_le_card hsub
    _ = t.capacity := Finset.card_range _

namespace Buddy

/-- The pool represents its live blocks and counts their bytes. -/
structure Sound (p : Buddy) (live : Finset Block) (F : FreeLists) : Prop
    extends p.Represents live F where
  used_eq : p.used = ∑ b ∈ live, p.tiers.extent b.tier

variable {p q : Buddy} {live : Finset Block} {F G : FreeLists} {b c : Block} {tier o size : Nat}

namespace Represents

theorem meets_eq (h : p.Represents live F) (hb : b ∈ live) (hc : c ∈ live) (hm : b.Meets c) :
    b = c :=
  h.live_apart b hb c hc hm

theorem eq_of_offset (h : p.Represents live F) (hb : b ∈ live) (hc : c ∈ live)
    (ho : p.tiers.offset b = p.tiers.offset c) : b = c :=
  h.meets_eq hb hc (Tiers.meets_of_has (h.live_holds b hb).1 (h.live_holds c hc).1
    (p.tiers.has_offset b) (ho ▸ p.tiers.has_offset c))

/-- No live block begins where a vacant one does. -/
theorem offset_ne_of_vacant (h : p.Represents live F) (hc : c.tier < p.tiers.count)
    (hv : c.Vacant live) (hb : b ∈ live) : p.tiers.offset b ≠ p.tiers.offset c := by
  intro ho
  exact hv b hb (Tiers.meets_of_has hc (h.live_holds b hb).1 (p.tiers.has_offset c)
    (ho ▸ p.tiers.has_offset b))

/-- A live block is a marked one of which neither half is marked. -/
theorem isLive_ok (h : p.Represents live F) (hb : p.tiers.Holds b) :
    p.isLive b = .ok (decide (b ∈ live)) := by
  rw [isLive, h.isMarked_inUse hb, Checked.ok_bind]
  by_cases hu : b.InUse live
  · rw [decide_eq_true hu, if_neg (by decide), Tiers.deepest_ok h.wellFormed, Checked.ok_bind]
    by_cases hd : b.tier = p.tiers.count - 1
    · obtain ⟨l, hl, hw⟩ := hu
      have hlb : l = b := by
        have hlt := (h.live_holds l hl).1
        exact hw.eq_of_tier (Nat.le_antisymm (by omega) hw.1)
      rw [if_pos hd, decide_eq_true (hlb ▸ hl)]
      rfl
    · have hb' : b.tier + 1 < p.tiers.count := by
        have := hb.1
        omega
      have hold₁ := hb.leftChild hb'
      have hold₂ := hold₁.buddy (Nat.succ_pos b.tier)
      have hiff := h.live_apart.mem_iff (b := b)
      rw [if_neg hd, h.isMarked_inUse hold₁, Checked.ok_bind, h.isMarked_inUse hold₂]
      by_cases h₁ : b.leftChild.InUse live
      · rw [decide_eq_true h₁, if_pos rfl, decide_eq_false fun hbl => (hiff.1 hbl).2.1 h₁]
        rfl
      · rw [decide_eq_false h₁, if_neg (by decide), Checked.ok_bind]
        congr 1
        rw [Bool.eq_iff_iff, decide_eq_true_iff, hiff, Bool.not_eq_true', decide_eq_false_iff_not]
        exact ⟨fun h₂ => ⟨hu, h₁, h₂⟩, fun h₂ => h₂.2.2⟩
  · have hbn : b ∉ live := fun hbl => hu ⟨b, hbl, .refl b⟩
    rw [decide_eq_false hu, decide_eq_false hbn]
    rfl

theorem liveAmong_some (h : p.Represents live F) (hb : b ∈ live) {n : Nat}
    (hn : n ≤ p.tiers.count) (ht : b.tier < n) :
    p.liveAmong (p.tiers.offset b) n = .ok (some b) := by
  induction n with
  | zero => exact absurd ht (Nat.not_lt_zero _)
  | succ tier ih =>
    have hold := h.live_holds b hb
    have hlt : tier < p.tiers.count := hn
    have hcount := h.count_le
    have hdvd : p.tiers.extent tier ∣ p.tiers.offset b := by
      obtain ⟨k, hk⟩ := Nat.exists_eq_add_of_le (Nat.le_of_lt_succ ht)
      rw [hk] at hlt ⊢
      exact Nat.dvd_mul_left_of_dvd (Tiers.extent_add hlt ▸ Nat.dvd_mul_right _ _) _
    have hcap := hold.offset_lt h.wellFormed
    have hstart := Tiers.starting_ok h.wellFormed hlt (o := p.tiers.offset b) (by omega)
    rw [if_pos ⟨hdvd, hcap⟩] at hstart
    let c : Block := ⟨tier, p.tiers.offset b / p.tiers.extent tier⟩
    obtain ⟨hc, hhas⟩ := Tiers.exists_holds_has h.wellFormed hlt hcap
    have hw : c.Within b :=
      Tiers.within_of_has hlt (Nat.le_of_lt_succ ht) hhas (p.tiers.has_offset b)
    rw [liveAmong, hstart, Checked.ok_bind]
    dsimp only
    rw [h.isMarked_inUse hc, Checked.ok_bind]
    by_cases hcb : c = b
    · have hcl : c ∈ live := hcb ▸ hb
      rw [decide_eq_true ⟨c, hcl, .refl c⟩, if_pos rfl, h.isLive_ok hc, Checked.ok_bind,
        decide_eq_true hcl, if_pos rfl]
      exact congrArg (fun b => Except.ok (some b)) hcb
    · have hnu : ¬ c.InUse live := by
        rintro ⟨l, hl, hlw⟩
        have hlb := h.meets_eq hl hb (.inl (hlw.trans hw))
        exact hcb (hw.antisymm (hlb ▸ hlw))
      have htb : b.tier ≠ tier := fun he => hcb (hw.eq_of_tier he.symm)
      rw [decide_eq_false hnu, if_neg (by decide)]
      exact ih (Nat.le_of_succ_le hn) (by omega)

theorem liveAmong_none (h : p.Represents live F) (ho : ∀ b ∈ live, p.tiers.offset b ≠ o) {n : Nat}
    (hn : n ≤ p.tiers.count) : p.liveAmong o n = .ok none := by
  induction n with
  | zero => rfl
  | succ tier ih =>
    have hlt : tier < p.tiers.count := hn
    have hcount := h.count_le
    rw [liveAmong, Tiers.starting_ok h.wellFormed hlt (by omega), Checked.ok_bind]
    by_cases hd : p.tiers.extent tier ∣ o ∧ o < p.tiers.capacity
    · obtain ⟨hdvd, hcap⟩ := id hd
      let c : Block := ⟨tier, o / p.tiers.extent tier⟩
      obtain ⟨hc, -⟩ := Tiers.exists_holds_has h.wellFormed hlt hcap
      have hcn : c ∉ live := fun hcl => ho c hcl (Nat.div_mul_cancel hdvd)
      rw [if_pos hd]
      dsimp only
      rw [isMarked_ok h.covers hc, Checked.ok_bind]
      split
      · rw [h.isLive_ok hc, Checked.ok_bind, decide_eq_false hcn]
        rfl
      · exact ih (Nat.le_of_succ_le hn)
    · rw [if_neg hd]
      rfl

theorem liveAt_some (h : p.Represents live F) (hb : b ∈ live) :
    p.liveAt (p.tiers.offset b) = .ok (some b) :=
  h.liveAmong_some hb (Nat.le_refl _) (h.live_holds b hb).1

theorem liveAt_none (h : p.Represents live F) (ho : ∀ b ∈ live, p.tiers.offset b ≠ o) :
    p.liveAt o = .ok none :=
  h.liveAmong_none ho (Nat.le_refl _)

/-- The block that a hint leads to, if it leads to any, is live and begins at the offset. -/
theorem liveHinted_ok (h : p.Represents live F) (o hint : Nat) :
    ∃ found, p.liveHinted o hint = .ok found ∧
      ∀ b, found = some b → b ∈ live ∧ p.tiers.offset b = o := by
  rw [liveHinted]
  by_cases hfit : hint = 0 ∨ p.tiers.capacity < hint
  · rw [Tiers.fit_none _ hfit, Checked.ok_bind]
    exact ⟨none, rfl, fun _ hb => nomatch hb⟩
  · rw [not_or, Nat.not_lt] at hfit
    obtain ⟨tier, hlt, -, hfit⟩ := Tiers.fit_some h.wellFormed hfit.1 hfit.2
    have hcount := h.count_le
    rw [hfit, Checked.ok_bind]
    dsimp only
    rw [Tiers.starting_ok h.wellFormed hlt (by omega), Checked.ok_bind]
    by_cases hd : p.tiers.extent tier ∣ o ∧ o < p.tiers.capacity
    · obtain ⟨hdvd, hcap⟩ := id hd
      obtain ⟨hc, -⟩ := Tiers.exists_holds_has h.wellFormed hlt hcap
      rw [if_pos hd]
      dsimp only
      rw [h.isLive_ok hc, Checked.ok_bind]
      split
      case isTrue hl =>
        refine ⟨_, rfl, ?_⟩
        rintro b ⟨⟩
        exact ⟨of_decide_eq_true hl, Nat.div_mul_cancel hdvd⟩
      case isFalse => exact ⟨none, rfl, fun _ hb => nomatch hb⟩
    · rw [if_neg hd]
      exact ⟨none, rfl, fun _ hb => nomatch hb⟩

theorem offset_lt_size (h : p.Represents live F) (hb : b ∈ live) :
    p.tiers.offset b < p.region.size := by
  rw [h.size_eq]
  exact (h.live_holds b hb).offset_lt h.wellFormed

/-- What is available is the size of the blocks of the topmost tier that has a free one. -/
theorem available_cases (h : p.Represents live F) :
    (p.available = .ok 0 ∧ ∀ t < p.tiers.count, F t = []) ∨
    ∃ t < p.tiers.count, p.available = .ok (p.tiers.extent t) ∧ F t ≠ [] ∧ ∀ s < t, F s = [] := by
  have hempty : ∀ t (ht : t < p.heads.size), p.heads[t].isSome = false ↔ F t = [] := by
    intro t ht
    have hh := h.head t (h.heads_size ▸ ht)
    rw [Array.getElem?_eq_getElem ht, Option.some.injEq] at hh
    rw [hh, Option.isSome_eq_false_iff, Option.isNone_iff_eq_none, List.head?_eq_none_iff]
  cases hi : p.heads.findIdx? Option.isSome with
  | none =>
    refine .inl ⟨by rw [available, hi], ?_⟩
    intro t ht
    rw [← h.heads_size] at ht
    exact (hempty t ht).1 (Array.findIdx?_eq_none_iff.1 hi _ (Array.getElem_mem ht))
  | some t =>
    obtain ⟨ht, hs, hbefore⟩ := Array.findIdx?_eq_some_iff_getElem.1 hi
    have hlt : t < p.tiers.count := h.heads_size ▸ ht
    refine .inr ⟨t, hlt, ?_, ?_, ?_⟩
    · rw [available, hi]
      exact Tiers.width_ok h.wellFormed hlt
    · intro hf
      rw [(hempty t ht).2 hf] at hs
      cases hs
    · intro s hst
      exact (hempty s (Nat.lt_trans hst ht)).1 (Bool.eq_false_iff.2 (hbefore s hst))

/-- What is available is nothing or the block size of a tier, and exactly the tiers of larger blocks
hand out none. -/
theorem available_carved (h : p.Represents live F) :
    ∃ n, p.available = .ok n ∧ (n = 0 ∨ ∃ t, n = p.tiers.extent t) ∧
      ∀ t < p.tiers.count, (F.carved t = none ↔ n < p.tiers.extent t) := by
  obtain ⟨ha, hF⟩ | ⟨top, hlt, ha, hF, hF'⟩ := h.available_cases
  · refine ⟨0, ha, .inl rfl, ?_⟩
    intro t ht
    rw [FreeLists.carved_eq_none]
    exact iff_of_true (fun s hs => hF s (Nat.lt_of_le_of_lt hs ht)) (p.tiers.extent_pos t)
  · refine ⟨p.tiers.extent top, ha, .inr ⟨top, rfl⟩, ?_⟩
    intro t ht
    rw [FreeLists.carved_eq_none, ← Nat.not_le]
    constructor
    · intro hnil hle
      exact hF (hnil top (Tiers.tier_le_of_extent hlt ht hle))
    · intro hn s hs
      exact hF' s (Nat.lt_of_not_le fun hle => hn (Tiers.extent_le (Nat.le_trans hle hs)))

theorem sizeAt_some (h : p.Represents live F) (hb : b ∈ live) :
    p.sizeAt (p.tiers.offset b) = .ok (p.tiers.extent b.tier) := by
  have hlt := h.offset_lt_size hb
  have hcont : p.region.contains (p.tiers.offset b) = true := decide_eq_true hlt
  rw [sizeAt, hcont, if_neg (by decide), Region.resolve_ok hlt, Checked.ok_bind, h.liveAt_some hb,
    Checked.ok_bind]
  exact Tiers.width_ok h.wellFormed (h.live_holds b hb).1

theorem sizeAt_none (h : p.Represents live F) (ho : ∀ b ∈ live, p.tiers.offset b ≠ o) :
    p.sizeAt o = .ok 0 := by
  rw [sizeAt]
  by_cases hlt : o < p.region.size
  · have hcont : p.region.contains o = true := decide_eq_true hlt
    rw [hcont, if_neg (by decide), Region.resolve_ok hlt, Checked.ok_bind, h.liveAt_none ho,
      Checked.ok_bind]
    rfl
  · have hcont : p.region.contains o = false := decide_eq_false hlt
    rw [hcont, if_pos (by decide)]
    rfl

end Represents

theorem Sound.used_le (h : p.Sound live F) : p.used ≤ p.tiers.capacity := by
  rw [h.used_eq]
  exact Tiers.sum_extent_le h.wellFormed h.live_holds h.live_apart

end Buddy

end FixedPool
