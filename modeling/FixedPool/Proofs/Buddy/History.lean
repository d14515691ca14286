import FixedPool.Proofs.Buddy.Contract

/-!
A buddy pool keeps no trace of its past: as soon as the same ranges are held in two pools of one
capacity, they have the same marks, list the same free blocks and count the same bytes, whatever
calls led there. What may differ is the order of a list, and the peak.
-/

namespace FixedPool.Buddy

variable {p q : Buddy} {live live' : Finset Block} {held : Finset Span} {F G : FreeLists}
  {b : Block} {xs : List Address} {host host' : Host} {request request' : Nat}

/-- Two pools have the same marks, list the same blocks, in whatever order, and count the same
bytes. -/
structure Alike (p q : Buddy) : Prop where
  tiers : q.tiers = p.tiers
  marks : q.marks = p.marks
  lists : ∀ tier < p.tiers.count, ∃ xs ys,
    p.HasFreeList tier xs ∧ q.HasFreeList tier ys ∧ xs.Nodup ∧ xs.Perm ys
  used : q.used = p.used
  available : ∃ n, p.available = .ok n ∧ q.available = .ok n

/-! ### What the live blocks determine -/

namespace Represents

theorem mem_of_spans (hp : p.Represents live F) (hq : q.Represents live' G)
    (ht : q.tiers = p.tiers) (hs : p.spans live = q.spans live') (hb : b ∈ live) : b ∈ live' := by
  have hm : p.tiers.span b ∈ q.spans live' := hs ▸ mem_spans.2 ⟨b, hb, rfl⟩
  obtain ⟨c, hc, he⟩ := mem_spans.1 hm
  rw [ht] at he
  obtain rfl := Tiers.span_inj (ht ▸ (hq.live_holds c hc).1) (hp.live_holds b hb).1 he
  exact hc

theorem live_eq_of_spans (hp : p.Represents live F) (hq : q.Represents live' G)
    (ht : q.tiers = p.tiers) (hs : p.spans live = q.spans live') : live = live' :=
  Finset.ext fun _ => ⟨hp.mem_of_spans hq ht hs, hq.mem_of_spans hp ht.symm hs.symm⟩

theorem marks_eq (hp : p.Represents live F) (hq : q.Represents live G) (ht : q.tiers = p.tiers) :
    q.marks = p.marks := by
  apply (ht ▸ hq.covers).eq_of_marked hp.covers
  intro b hlt hi
  exact (hq.marked_iff b (ht ▸ ⟨hlt, hi⟩)).trans (hp.marked_iff b ⟨hlt, hi⟩).symm

theorem lists_of_lists (hp : p.Represents live F) (hq : q.Represents live G)
    (ht : q.tiers = p.tiers) (hb : F.Lists b) : G.Lists b := by
  have hold := hp.holds b hb
  exact (hq.lists_iff b (ht ▸ hold)).2 ((hp.lists_iff b hold).1 hb)

theorem lists_perm (hp : p.Represents live F) (hq : q.Represents live G) (ht : q.tiers = p.tiers)
    (tier : Nat) : (F tier).Perm (G tier) := by
  rw [List.perm_ext_iff_of_nodup (hp.nodup tier) (hq.nodup tier)]
  intro i
  exact ⟨hp.lists_of_lists hq ht (b := ⟨tier, i⟩), hq.lists_of_lists hp ht.symm (b := ⟨tier, i⟩)⟩

theorem available_eq (hp : p.Represents live F) (hq : q.Represents live G)
    (ht : q.tiers = p.tiers) : ∃ n, p.available = .ok n ∧ q.available = .ok n := by
  have hnil : ∀ t, F t = [] ↔ G t = [] := by
    intro t
    have hperm := hp.lists_perm hq ht t
    exact ⟨fun h => (h ▸ hperm).nil_eq.symm, fun h => (h ▸ hperm).eq_nil⟩
  obtain ⟨ha, hF⟩ | ⟨t, hlt, ha, hF, hF'⟩ := hp.available_cases <;>
    obtain ⟨ha', hG⟩ | ⟨s, hlt', ha', hG, hG'⟩ := hq.available_cases
  · exact ⟨0, ha, ha'⟩
  · exact absurd ((hnil s).1 (hF s (ht ▸ hlt'))) hG
  · exact absurd ((hnil t).2 (hG t (ht ▸ hlt))) hF
  · -- Neither of the two tiers lies above the other, as the lists above both are empty.
    have hts : t = s := by
      apply Nat.le_antisymm
      · exact Nat.le_of_not_lt fun h => hG ((hnil s).1 (hF' s h))
      · exact Nat.le_of_not_lt fun h => hF ((hnil t).2 (hG' t h))
    rw [ht, ← hts] at ha'
    exact ⟨_, ha, ha'⟩

end Represents

theorem Sound.alike_of_live (hp : p.Sound live F) (hq : q.Sound live G)
    (ht : q.tiers = p.tiers) : p.Alike q where
  tiers := ht
  marks := hp.marks_eq hq.toRepresents ht
  lists := fun tier hlt => ⟨F tier, G tier, hp.hasFreeList hlt, hq.hasFreeList (ht ▸ hlt),
    hp.nodup tier, hp.lists_perm hq.toRepresents ht tier⟩
  used := by rw [hq.used_eq, hp.used_eq, ht]
  available := hp.available_eq hq.toRepresents ht

theorem Reachable.alike_of_tiers (hp : Reachable host request p held)
    (hq : Reachable host' request' q held) (ht : q.tiers = p.tiers) : p.Alike q := by
  obtain ⟨live, F, hs, hl⟩ := hp.sound
  obtain ⟨live', G, hs', hl'⟩ := hq.sound
  obtain rfl := hs.live_eq_of_spans hs'.toRepresents ht (hl.symm.trans hl')
  exact hs.alike_of_live hs' ht

theorem Reachable.wellFormed (h : Reachable host request p held) : p.tiers.WellFormed := by
  obtain ⟨live, F, hs, -⟩ := h.sound
  exact hs.wellFormed

/-! ### Releasing in any order -/

theorem Reachable.free_held (h : Reachable host request p held) {address : Address}
    (ha : ∃ s ∈ held, s.start = address) :
    ∃ q, free address p = .ok () q ∧
      Reachable host request q (held.filter (·.start ≠ address)) ∧ q.tiers = p.tiers := by
  obtain ⟨live, F, hs, rfl⟩ := h.sound
  obtain ⟨b, hb, rfl⟩ := exists_mem_spans.1 ha
  obtain ⟨q, G, hq, -, hk⟩ := hs.free_ok hb
  have hrun : (Call.free (p.tiers.offset b)).run p = .ok .done q := Op.bind_ok _ hq
  exact ⟨q, hq, h.returned _ hrun, hk.tiers⟩

theorem Reachable.free_each (h : Reachable host request p held) (hn : xs.Nodup)
    (hx : ∀ a ∈ xs, ∃ s ∈ held, s.start = a) :
    ∃ q, xs.forM free p = .ok () q ∧
      Reachable host request q (held.filter (·.start ∉ xs)) ∧ q.tiers = p.tiers := by
  -- On the list: the ranges at the addresses that are left are held still.
  induction xs generalizing p held with
  | nil =>
    refine ⟨p, rfl, ?_, rfl⟩
    rwa [Finset.filter_true_of_mem fun _ _ => List.not_mem_nil]
  | cons a xs ih =>
    obtain ⟨hne, hn⟩ := List.nodup_cons.1 hn
    obtain ⟨q, hq, hr, ht⟩ := h.free_held (hx a List.mem_cons_self)
    obtain ⟨r, hfree, hr', ht'⟩ := ih hr hn fun c hc => by
      obtain ⟨s, hs, rfl⟩ := hx c (List.mem_cons_of_mem a hc)
      exact ⟨s, Finset.mem_filter.2 ⟨hs, fun he => hne (he ▸ hc)⟩, rfl⟩
    refine ⟨r, ?_, ?_, ht'.trans ht⟩
    · exact (Op.bind_ok (fun _ => xs.forM free) hq).trans hfree
    · rw [Finset.filter_filter] at hr'
      simpa only [List.mem_cons, not_or] using hr'

/-! ### Nothing live -/

/-- The root block is the only free one, and no bytes are in use. -/
structure Whole (p : Buddy) : Prop where
  root : p.HasFreeList 0 [0]
  others : ∀ tier < p.tiers.count, 0 < tier → p.HasFreeList tier []
  used : p.used = 0
  available : p.available = .ok p.tiers.capacity

theorem Sound.whole (h : p.Sound ∅ F) : p.Whole := by
  have hroot : F 0 = [0] := by
    rw [← List.perm_singleton, List.perm_ext_iff_of_nodup (h.nodup 0) (List.nodup_singleton 0)]
    intro i
    rw [List.mem_singleton]
    constructor
    · intro hi
      exact Nat.lt_one_iff.1 (h.holds ⟨0, i⟩ hi).2
    · rintro rfl
      exact (h.lists_iff Block.root (Tiers.holds_root h.wellFormed)).2 (Block.free_empty.2 rfl)
  have hnil : ∀ t, 0 < t → F t = [] := by
    intro t ht
    rw [List.eq_nil_iff_forall_not_mem]
    intro i hi
    have hf := (h.lists_iff ⟨t, i⟩ (h.holds ⟨t, i⟩ hi)).1 hi
    exact absurd (Block.free_empty.1 hf) (Nat.ne_of_gt ht)
  refine ⟨hroot ▸ h.hasFreeList h.wellFormed.count_pos, ?_, h.used_eq.trans Finset.sum_empty, ?_⟩
  · intro tier hlt ht
    exact hnil tier ht ▸ h.hasFreeList hlt
  · obtain ⟨-, hF⟩ | ⟨t, -, ha, hF, -⟩ := h.available_cases
    · rw [hF 0 h.wellFormed.count_pos] at hroot
      cases hroot
    · obtain rfl | ht := Nat.eq_zero_or_pos t
      · rw [ha, h.wellFormed.capacity_eq]
      · exact absurd (hnil t ht) hF

theorem Reachable.whole (h : Reachable host request p ∅) : p.Whole := by
  obtain ⟨live, F, hs, hl⟩ := h.sound
  obtain rfl := Finset.image_eq_empty.1 hl.symm
  exact hs.whole

theorem Reachable.forgets (hp : Reachable host request p held)
    (hq : Reachable host' request' q held) (hc : p.tiers.capacity = q.tiers.capacity) :
    p.Alike q ∧
    (∀ xs ys : List Address, xs.Nodup → xs.Perm ys → (∀ a ∈ xs, ∃ s ∈ held, s.start = a) →
      ∃ r t, xs.forM free p = .ok () r ∧ ys.forM free q = .ok () t ∧ r.Alike t) ∧
    ∀ xs : List Address, xs.Nodup → (∀ a, a ∈ xs ↔ ∃ s ∈ held, s.start = a) →
      ∃ r, xs.forM free p = .ok () r ∧ r.Whole := by
  have ht : q.tiers = p.tiers := hq.wellFormed.eq_of_capacity hp.wellFormed hc.symm
  refine ⟨hp.alike_of_tiers hq ht, ?_, ?_⟩
  · intro xs ys hn hperm hx
    obtain ⟨r, hr, hrr, htr⟩ := hp.free_each hn hx
    obtain ⟨t, ht', htt, htt'⟩ := hq.free_each (hperm.nodup_iff.1 hn)
      fun a ha => hx a (hperm.mem_iff.2 ha)
    have hheld : held.filter (·.start ∉ ys) = held.filter (·.start ∉ xs) := by
      simp only [hperm.mem_iff]
    rw [hheld] at htt
    exact ⟨r, t, hr, ht', hrr.alike_of_tiers htt (htt'.trans (ht.trans htr.symm))⟩
  · intro xs hn hx
    obtain ⟨r, hr, hrr, -⟩ := hp.free_each hn fun a ha => (hx a).1 ha
    have hheld : held.filter (·.start ∉ xs) = ∅ :=
      Finset.filter_eq_empty_iff.2 fun s hs hne => hne ((hx s.start).2 ⟨s, hs, rfl⟩)
    rw [hheld] at hrr
    exact ⟨r, hr, hrr.whole⟩

/-- One quarter is held of each of two pools of 64 bytes, of which one has held a half besides. -/
theorem forgets_half : ∃ p q held, Reachable ⟨fun _ => true⟩ 64 p held ∧
    Reachable ⟨fun _ => true⟩ 50 q held ∧ held = {⟨0, 16⟩} ∧ p.Alike q ∧
    ∃ r, [0].forM free p = .ok () r ∧ r.Whole := by
  have hp : ∃ p₀ p, create ⟨fun _ => true⟩ 64 = .ok p₀ ∧
      (do
        let a ← (Call.alloc 10).run
        return (a, (← get).tiers.capacity) : Op Buddy (Reply × Nat)) p₀ =
      .ok (.address (some 0), 64) p := Op.exists_of_answerFrom (by decide +kernel)
  have hq : ∃ q₀ q, create ⟨fun _ => true⟩ 50 = .ok q₀ ∧
      (do
        let a ← (Call.alloc 10).run
        let b ← (Call.alloc 20).run
        let c ← (Call.free 32).run
        return (a, b, c, (← get).tiers.capacity) : Op Buddy (Reply × Reply × Reply × Nat)) q₀ =
      .ok (.address (some 0), .address (some 32), .done, 64) q :=
    Op.exists_of_answerFrom (by decide +kernel)
  obtain ⟨p₀, p, hp₀, hp⟩ := hp
  obtain ⟨q₀, q, hq₀, hq⟩ := hq
  simp only [Op.bind_eq_ok, Op.pure_apply, EStateM.Result.ok.injEq, Prod.mk.injEq] at hp hq
  obtain ⟨_, p₁, h₁, _, _, ⟨⟩, ⟨rfl, hcp⟩, rfl⟩ := hp
  obtain ⟨_, q₁, k₁, _, q₂, k₂, _, q₃, k₃, _, _, ⟨⟩, ⟨rfl, rfl, rfl, hcq⟩, rfl⟩ := hq
  have hp := (Reachable.created hp₀).returned _ h₁
  have hq := (((Reachable.created hq₀).returned _ k₁).returned _ k₂).returned _ k₃
  have hheld : heldAfter (heldAfter (heldAfter ∅ (.alloc 10) (.address (some 0))) (.alloc 20)
      (.address (some 32))) (.free 32) .done = heldAfter ∅ (.alloc 10) (.address (some 0)) := by
    decide
  rw [hheld] at hq
  obtain ⟨ha, -, hw⟩ := hp.forgets hq (hcp.trans hcq.symm)
  refine ⟨_, _, _, hp, hq, by decide, ha, hw [0] (List.nodup_singleton 0) ?_⟩
  intro a
  rw [List.mem_singleton]
  constructor
  · rintro rfl
    exact ⟨⟨0, 16⟩, by decide, rfl⟩
  · rintro ⟨s, hs, rfl⟩
    exact congrArg Span.start (Finset.mem_singleton.1 hs)

end FixedPool.Buddy
