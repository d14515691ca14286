import FixedPool.Proofs.Contract
import FixedPool.Proofs.Buddy.SplitMerge

/-!
Requests for arrays. Such a request is served exactly if the request for its bytes is, and leaves the
same state but for those bytes, which are zero whatever stood there before.
-/

namespace FixedPool

variable {σ : Type} [Allocator σ]

/-- Two states differ in that the bytes of a range are zero in the second one, and account for the
same. -/
structure Cleared (s : Span) (q r : σ) : Prop where
  inside : s.start + s.size ≤ (Allocator.region q).size
  size_eq : (Allocator.region r).size = (Allocator.region q).size
  zero : ∀ o, s.Has o → (Allocator.region r).byte o = 0
  other : ∀ o, ¬ s.Has o → (Allocator.region r).byte o = (Allocator.region q).byte o
  stats : ∃ counts, Allocator.stats q = .ok counts ∧ Allocator.stats r = .ok counts

/-- A request for an array is declined exactly if the number of its bytes is no word or a request for
that many bytes is declined. Otherwise it is served like the latter, and what it leaves is told by
`Like` from what the latter leaves. -/
structure Zeroes (p : σ) (Like : Span → σ → σ → Prop) : Prop where
  none_iff : ∀ count size, (∃ t, (Allocator.calloc count size : Op σ _) p = .ok none t) ↔
    Word.bound ≤ count * size ∨ ∃ t, (Allocator.alloc (count * size) : Op σ _) p = .ok none t
  unchanged : ∀ count size t, (Allocator.calloc count size : Op σ _) p = .ok none t → t = p
  served : ∀ count size, ¬ (∃ t, (Allocator.calloc count size : Op σ _) p = .ok none t) →
    ∃ a q r, (Allocator.alloc (count * size) : Op σ _) p = .ok (some a) q ∧
      (Allocator.calloc count size : Op σ _) p = .ok (some a) r ∧ Like ⟨a, count * size⟩ q r

/-- It is enough to look at the bytes that are cleared after they were handed out. -/
theorem Zeroes.of_alloc {p : σ} {Like : Span → σ → σ → Prop}
    (h : ∀ size, (Allocator.alloc size : Op σ _) p = .ok none p ∨
      ∃ a q, (Allocator.alloc size : Op σ _) p = .ok (some a) q ∧
        Like ⟨a, size⟩ q (Allocator.mapRegion (·.clear a size) q)) : Zeroes p Like := by
  have hcalloc (count size : Nat) :
      (Word.bound ≤ count * size ∨ (Allocator.alloc (count * size) : Op σ _) p = .ok none p) ∧
        (Allocator.calloc count size : Op σ _) p = .ok none p ∨
      ¬ Word.bound ≤ count * size ∧ ∃ a q r,
        (Allocator.alloc (count * size) : Op σ _) p = .ok (some a) q ∧
        (Allocator.calloc count size : Op σ _) p = .ok (some a) r ∧ Like ⟨a, count * size⟩ q r := by
    rw [Allocator.calloc_apply]
    by_cases hb : Word.bound ≤ count * size
    · exact .inl ⟨.inl hb, if_pos hb⟩
    · rw [if_neg hb]
      obtain ha | ⟨a, q, ha, hl⟩ := h (count * size)
      · rw [ha]
        exact .inl ⟨.inr rfl, rfl⟩
      · rw [ha]
        exact .inr ⟨hb, a, q, _, rfl, rfl, hl⟩
  constructor
  · intro count size
    obtain ⟨hn, hc⟩ | ⟨hb, a, q, r, ha, hc, -⟩ := hcalloc count size
    · exact iff_of_true ⟨p, hc⟩ (hn.imp_right fun ha => ⟨p, ha⟩)
    · rw [hc, ha]
      exact iff_of_false (fun ⟨_, hn⟩ => nomatch hn) (not_or_intro hb fun ⟨_, hn⟩ => nomatch hn)
  · intro count size t ht
    obtain ⟨-, hc⟩ | ⟨-, a, q, r, -, hc, -⟩ := hcalloc count size
    · rw [hc] at ht
      cases ht
      rfl
    · rw [hc] at ht
      cases ht
  · intro count size hs
    obtain ⟨-, hc⟩ | ⟨-, hserved⟩ := hcalloc count size
    · exact absurd ⟨p, hc⟩ hs
    · exact hserved

theorem Zeroes.calloc_of_alloc {p q : σ} {Like : Span → σ → σ → Prop} {a : Nat}
    (h : Zeroes p Like) (count size : Nat) (hb : count * size < Word.bound)
    (ha : (Allocator.alloc (count * size) : Op σ _) p = .ok (some a) q) :
    ∃ r, (Allocator.calloc count size : Op σ _) p = .ok (some a) r ∧ Like ⟨a, count * size⟩ q r := by
  have hsome : ¬ ∃ t, (Allocator.calloc count size : Op σ _) p = .ok none t := by
    rw [h.none_iff]
    rintro (hn | ⟨t, ht⟩)
    · exact Nat.not_le_of_gt hb hn
    · cases ha.symm.trans ht
  obtain ⟨a', q', r, ha', hr, hl⟩ := h.served count size hsome
  cases ha.symm.trans ha'
  exact ⟨r, hr, hl⟩

/-! ### Buddy pools -/

namespace Buddy

variable {p q : Buddy} {live : Finset Block} {held : Finset Span} {F G : FreeLists} {b : Block}
  {size : Nat} {host : Host} {request : Nat}

/-- The state after a zeroed request beside the one after the plain request: the marks and the lists
are the same, and so are the bytes of free blocks and of what was held before. -/
structure ZeroedLike (held : Finset Span) (s : Span) (q r : Buddy) : Prop extends Cleared s q r where
  tiers : r.tiers = q.tiers
  marks : r.marks = q.marks
  heads : r.heads = q.heads
  lists : ∃ F, q.HasFreeLists F ∧ r.HasFreeLists F ∧
    ∀ b, F.Lists b → ∀ o, (q.tiers.span b).Has o → r.region.byte o = q.region.byte o
  held_byte : ∀ t ∈ held, ∀ o, t.Has o → r.region.byte o = q.region.byte o

theorem Acquires.zeroedLike (h : p.Acquires live size b G q) :
    ZeroedLike (p.spans live) ⟨p.tiers.offset b, size⟩ q
      (Allocator.mapRegion (·.clear (p.tiers.offset b) size) q) := by
  have hclear := Sound.acquires_clear h
  unfold withRegion at hclear
  have hbyte := Region.byte_clear h.end_le
  obtain ⟨counts, hcounts⟩ := h.sound.exact.stats
  refine ⟨⟨h.end_le, Region.size_clear .., ?_, ?_, counts, hcounts, hcounts⟩, rfl, rfl, rfl,
    ⟨G, h.sound.hasFreeLists, hclear.sound.hasFreeLists, ?_⟩, ?_⟩
  · exact fun o ho => (hbyte o).trans (if_pos ho)
  · exact fun o ho => (hbyte o).trans (if_neg ho)
  · intro a ha o hao
    have hbo := h.sound.not_has_of_lists ha (Finset.mem_insert_self b live) hao
    rw [h.keeps.tiers] at hbo
    exact (hbyte o).trans (if_neg fun hso => hbo (h.has_block hso))
  · intro t ht o hto
    obtain ⟨l, hl, rfl⟩ := mem_spans.1 ht
    exact (hclear.keeps.byte l hl o hto).trans (h.keeps.byte l hl o hto).symm

theorem Sound.zeroes (h : p.Sound live F) : Zeroes p (ZeroedLike (p.spans live)) := by
  apply Zeroes.of_alloc
  intro size
  cases hs : F.served p.tiers size with
  | none => exact .inl (h.alloc_of_not_served hs)
  | some found =>
    obtain ⟨q, hq, ha⟩ := h.alloc_of_served hs
    exact .inr ⟨_, q, hq, ha.zeroedLike⟩

end Buddy

/-! ### Linear pools -/

namespace Linear

variable {p : Linear} {leases : Leases} {cells : List Nat} {size : Nat} {host : Host}
  {request : Nat}

/-- The state after a zeroed request beside the one after the plain request: the cells are the same,
and so are the bytes of their headers and of what was held before. -/
structure ZeroedLike (leases : Leases) (s : Span) (q r : Linear) : Prop extends Cleared s q r where
  cursor : r.cursor = q.cursor
  top : r.top = q.top
  chain : ∃ cells, q.Chain (leases.acquire (s.start - 8) s.size) q.top q.cursor cells ∧
    r.Chain (leases.acquire (s.start - 8) s.size) r.top r.cursor cells ∧
    ∀ cell ∈ cells, ∀ o, (⟨cell, 8⟩ : Span).Has o → r.region.byte o = q.region.byte o
  held_byte : ∀ cell n, leases cell = some ⟨n, false⟩ → ∀ o, (payload cell n).Has o →
    r.region.byte o = q.region.byte o

theorem Chained.withZeros (hp : p.Chained leases cells) (hf : p.Fits size) :
    (p.withZeros size).Chained (leases.acquire p.cursor size) (p.cursor :: cells) :=
  hp.withCell_fill hf (p.size_withZeros size) fun _ hi => byte_withZeros hf (.inl hi)

/-- Zeroing a new cell changes nothing that the counts are made of. -/
theorem Chained.stats_withZeros (hp : p.Chained leases cells) (hf : p.Fits size) :
    ∃ counts, Allocator.stats (p.withCell size) = .ok counts ∧
      Allocator.stats (p.withZeros size) = .ok counts := by
  refine ⟨_, (hp.withCell hf).stats_eq, ?_⟩
  rw [(hp.withZeros hf).stats_eq, size_withZeros, size_withCell, cursor_withZeros,
    cursor_withCell, peak_withZeros, peak_withCell]

theorem Chained.zeroedLike (hp : p.Chained leases cells) (hf : p.Fits size) :
    ZeroedLike leases ⟨p.cursor + 8, size⟩ (p.withCell size) (p.withZeros size) := by
  have hx := cellExtent_ge size
  have hle := hf.2
  have hsize := p.size_withCell size
  have hend : p.cursor + 8 + size ≤ (p.withCell size).region.size := by omega
  have hbyte := Region.byte_clear hend
  -- What is held and every header lie before the bytes of the new cell.
  have hbelow {o : Nat} (ho : o < p.cursor + 8) :
      (p.withZeros size).region.byte o = (p.withCell size).region.byte o :=
    byte_withZeros hf (.inl ho)
  refine ⟨⟨hend, Region.size_clear .., ?_, ?_, hp.stats_withZeros hf⟩, rfl, rfl,
    ⟨p.cursor :: cells, (hp.withCell hf).chain, (hp.withZeros hf).chain, ?_⟩, ?_⟩
  · exact fun o ho => (hbyte o).trans (if_pos ho)
  · exact fun o ho => (hbyte o).trans (if_neg ho)
  · intro cell hm o ho
    have hlt : o < cell + 8 := ho.2
    apply hbelow
    obtain rfl | hm := List.mem_cons.1 hm
    · exact hlt
    · have := hp.chain.lt_of_mem hm
      omega
  · intro cell n hl o ho
    have hlt : o < cell + 8 + n := ho.2
    have hge := cellExtent_ge n
    have hend := hp.end_le hl
    exact hbelow (by omega)

theorem Chained.zeroes (hp : p.Chained leases cells) : Zeroes p (ZeroedLike leases) := by
  apply Zeroes.of_alloc
  intro size
  by_cases hf : p.Fits size
  · exact .inr ⟨_, _, hp.alloc_eq hf, hp.zeroedLike hf⟩
  · exact .inl (hp.alloc_none hf)

end Linear

/-- A request for an array leaves what the request for its bytes leaves, with these bytes zero, in
every run of either pool. -/
theorem zeroes_arrays (host : Host) (request : Nat) :
    (∀ p held, Buddy.Reachable host request p held → Zeroes p (Buddy.ZeroedLike held)) ∧
    ∀ p leases, Linear.Reachable host request p leases → Zeroes p (Linear.ZeroedLike leases) := by
  constructor
  · intro p held h
    obtain ⟨live, F, hs, rfl⟩ := h.sound
    exact hs.zeroes
  · intro p leases h
    obtain ⟨cells, hp⟩ := h.chained
    exact hp.zeroes

/-- A block and a cell are written to and released, and then handed out for an array. -/
theorem zeroes_arrays_recycled :
    (∃ p held q r, Buddy.Reachable ⟨fun _ => true⟩ 64 p held ∧ held = {⟨16, 16⟩} ∧
      Buddy.alloc 10 p = .ok (some 0) q ∧ q.region.byte 3 = 255 ∧
      (Allocator.calloc 2 5 : Op Buddy _) p = .ok (some 0) r ∧ r.region.byte 3 = 0 ∧
      Buddy.ZeroedLike held ⟨0, 10⟩ q r) ∧
    ∃ p leases q r, Linear.Reachable ⟨fun _ => true⟩ 64 p leases ∧
      leases 0 = some ⟨10, false⟩ ∧ leases 24 = some ⟨10, true⟩ ∧
      Linear.alloc 10 p = .ok (some 32) q ∧ q.region.byte 35 = 255 ∧
      (Allocator.calloc 2 5 : Op Linear _) p = .ok (some 32) r ∧ r.region.byte 35 = 0 ∧
      Linear.ZeroedLike leases ⟨32, 10⟩ q r := by
  obtain ⟨hbuddy, hlinear⟩ := zeroes_arrays ⟨fun _ => true⟩ 64
  constructor
  · have hrun : ∃ p₀ q, Buddy.create ⟨fun _ => true⟩ 64 = .ok p₀ ∧
        (do
          let a ← (Call.alloc 10).run
          let b ← (Call.alloc 10).run
          modify fun p => { p with region := p.region.setByte 3 255 }
          let c ← (Call.free 0).run
          let d ← Buddy.alloc 10
          return (a, b, c, d, (← get).region.byte 3) : Op Buddy _) p₀ =
        .ok (.address (some 0), .address (some 16), .done, some 0, 255) q :=
      Op.exists_of_answerFrom (by decide +kernel)
    obtain ⟨p₀, q, hp₀, hq⟩ := hrun
    simp only [Op.bind_eq_ok, Op.modify_apply, Op.get_apply, Op.pure_apply,
      EStateM.Result.ok.injEq, Prod.mk.injEq] at hq
    obtain ⟨_, p₁, h₁, _, p₂, h₂, _, p₃, ⟨-, rfl⟩, _, p, h₄, _, s, hq, _, _, ⟨rfl, rfl⟩,
      ⟨rfl, rfl, rfl, rfl, hbyte⟩, rfl⟩ := hq
    have h := (Buddy.Reachable.created hp₀).returned _ h₁
    have h := h.returned _ h₂
    have ho : (⟨0, 16⟩ : Span).Has 3 := by decide
    have h := h.stored 255 (by decide) ho
    have h := h.returned _ h₄
    obtain ⟨r, hr, hl⟩ := (hbuddy _ _ h).calloc_of_alloc 2 5 (by decide) hq
    exact ⟨p, _, s, r, h, by decide, hq, hbyte, hr, hl.zero 3 (by decide), hl⟩
  · have hrun : ∃ p₀ q, Linear.create ⟨fun _ => true⟩ 64 = .ok p₀ ∧
        (do
          let a ← (Call.alloc 10).run
          let b ← (Call.alloc 10).run
          modify fun p => { p with region := p.region.setByte 35 255 }
          let c ← (Call.free 32).run
          let d ← Linear.alloc 10
          return (a, b, c, d, (← get).region.byte 35) : Op Linear _) p₀ =
        .ok (.address (some 8), .address (some 32), .done, some 32, 255) q :=
      Op.exists_of_answerFrom (by decide +kernel)
    obtain ⟨p₀, q, hp₀, hq⟩ := hrun
    simp only [Op.bind_eq_ok, Op.modify_apply, Op.get_apply, Op.pure_apply,
      EStateM.Result.ok.injEq, Prod.mk.injEq] at hq
    obtain ⟨_, p₁, h₁, _, p₂, h₂, _, p₃, ⟨-, rfl⟩, _, p, h₄, _, s, hq, _, _, ⟨rfl, rfl⟩,
      ⟨rfl, rfl, rfl, rfl, hbyte⟩, rfl⟩ := hq
    have h := (Linear.Reachable.created hp₀).returned _ h₁
    have h := h.returned _ h₂
    have ho : 35 < 24 + Linear.cellExtent 10 := by
      have := Linear.cellExtent_ge 10
      omega
    have h := h.stored 255 rfl (by decide) ho
    have h := h.returned _ h₄
    obtain ⟨r, hr, hl⟩ := (hlinear _ _ h).calloc_of_alloc 2 5 (by decide) hq
    exact ⟨p, _, s, r, h, rfl, rfl, hq, hbyte, hr, hl.zero 35 (by decide), hl⟩

end FixedPool
