import FixedPool.Proofs.Buddy.History

/-!
Requests and releases that nest. If every release is that of the latest range that is outstanding,
its merges undo the splits of the request one by one, so that the lists come back in their order.
-/

namespace FixedPool.Buddy

set_option autoImplicit true in
/-- The states that nested requests and releases lead to, with the ranges that are outstanding, the
latest one first. In between, callers write to the bytes that they hold. -/
inductive Nested (p : Buddy) (held : Finset Span) : Buddy → List Span → Prop
  | start : Nested p held p []
  | allocated : Nested p held q stack → alloc size q = .ok (some a) r →
      Nested p held r (⟨a, sizeClass size⟩ :: stack)
  | refused : Nested p held q stack → alloc size q = .ok none r → Nested p held r stack
  | freed : Nested p held q (s :: stack) → free s.start q = .ok () r → Nested p held r stack
  | dealloced (hint : Nat) : Nested p held q (s :: stack) → dealloc s.start hint q = .ok () r →
      Nested p held r stack
  | stored (v : UInt8) : Nested p held q stack → s ∈ held ∨ s ∈ stack → s.Has offset →
      Nested p held { q with region := q.region.setByte offset v } stack

/-- One state has the marks, the list heads, the count of bytes in use and the free lists of another
one, whose blocks keep their links in the same bytes. -/
structure Restores (p q : Buddy) : Prop where
  tiers : q.tiers = p.tiers
  size : q.region.size = p.region.size
  marks : q.marks = p.marks
  heads : q.heads = p.heads
  used : q.used = p.used
  lists : ∀ tier < p.tiers.count, ∃ xs, p.HasFreeList tier xs ∧ q.HasFreeList tier xs ∧
    ∀ i ∈ xs, ∀ o, p.tiers.node ⟨tier, i⟩ ≤ o → o < p.tiers.node ⟨tier, i⟩ + 8 →
      q.region.byte o = p.region.byte o

variable {p q r : Buddy} {live live' : Finset Block} {held : Finset Span} {F G : FreeLists}
  {b : Block} {bs : List Block} {stack : List Span} {size address : Nat} {host : Host}
  {request : Nat}

/-! ### What the live blocks and the lists determine -/

namespace Sound

theorem linkAt_eq (hp : p.Sound live F) (hq : q.Sound live F) (hb : F.Lists b) :
    q.linkAt b = p.linkAt b :=
  (hq.thread b.tier).unique (hp.thread b.tier) b.index hb

theorem byte_node_eq (hp : p.Sound live F) (hq : q.Sound live F) (ht : q.tiers = p.tiers)
    (hb : F.Lists b) {o : Nat} (ho : p.tiers.node b ≤ o) (ho' : o < p.tiers.node b + 8) :
    q.region.byte o = p.region.byte o := by
  have hl := hp.linkAt_eq hq hb
  rw [linkAt, linkAt, ht, Prod.mk.injEq] at hl
  obtain ⟨h₁, h₂⟩ := hl
  by_cases h : o < p.tiers.node b + 4
  · exact Region.byte_congr (decodeLink_inj h₁) ho h
  · exact Region.byte_congr (decodeLink_inj h₂) (Nat.le_of_not_lt h) (by omega)

theorem heads_eq (hp : p.Sound live F) (hq : q.Sound live F) (ht : q.tiers = p.tiers) :
    q.heads = p.heads := by
  apply Array.ext_getElem?
  intro tier
  by_cases hlt : tier < p.tiers.count
  · rw [hp.head tier hlt, hq.head tier (ht ▸ hlt)]
  · have hs := hp.heads_size
    have hs' := ht ▸ hq.heads_size
    rw [Array.getElem?_eq_none (by omega), Array.getElem?_eq_none (by omega)]

theorem restores (hp : p.Sound live F) (hq : q.Sound live F) (ht : q.tiers = p.tiers) :
    p.Restores q where
  tiers := ht
  size := by rw [hq.size_eq, hp.size_eq, ht]
  marks := hp.marks_eq hq.toRepresents ht
  heads := hp.heads_eq hq ht
  used := by rw [hq.used_eq, hp.used_eq, ht]
  lists := fun tier hlt => ⟨F tier, hp.hasFreeList hlt, hq.hasFreeList (ht ▸ hlt),
    fun i hi _ ho ho' => hp.byte_node_eq hq ht (b := ⟨tier, i⟩) hi ho ho'⟩

end Sound

/-! ### Requests and their releases -/

/-- The release of the block that a request is served by leads back to the lists before. -/
theorem Sound.alloc_undone (h : p.Sound live F) (size : Nat) :
    alloc size p = .ok none p ∨
    ∃ b G q, alloc size p = .ok (some (p.tiers.offset b)) q ∧ q.Sound (insert b live) G ∧
      b ∉ live ∧ p.Keeps q live ∧ p.tiers.extent b.tier = sizeClass size ∧
      G.coalesced b.tier b.index = F := by
  by_cases hn : size = 0 ∨ p.tiers.capacity < size
  · exact .inl (h.alloc_none_of_size hn)
  rw [not_or, Nat.not_lt] at hn
  obtain ⟨tier, -, he, ⟨-, ha⟩ | ⟨i, G, q, hc, hq, hs, hv, hk⟩⟩ := h.alloc_carved hn.1 hn.2
  · exact .inl ha
  · have hbl : (⟨tier, i⟩ : Block) ∉ live := fun hbl => hv _ hbl (.refl _)
    exact .inr ⟨⟨tier, i⟩, G, q, hq, hs, hbl, hk, he,
      FreeLists.coalesced_carved (fun _ hb ht => h.not_lists_buddy hb ht) hc⟩

/-- Releasing the blocks, the first one first, leads from `live'` and `G` back to `live` and `F`. -/
def Unwinds (live : Finset Block) (F : FreeLists) :
    List Block → Finset Block → FreeLists → Prop
  | [], live', G => live' = live ∧ G = F
  | b :: bs, live', G => b ∈ live' ∧
    Unwinds live F bs (live'.erase b) (G.coalesced b.tier b.index)

theorem Unwinds.subset (h : Unwinds live F bs live' G) : live ⊆ live' := by
  induction bs generalizing live' G with
  | nil => exact Finset.subset_of_eq h.1.symm
  | cons b bs ih => exact (ih h.2).trans (Finset.erase_subset b live')

theorem Unwinds.mem (h : Unwinds live F bs live' G) (hb : b ∈ bs) : b ∈ live' := by
  induction bs generalizing live' G with
  | nil => cases hb
  | cons c bs ih =>
    obtain rfl | hb := List.mem_cons.1 hb
    · exact h.1
    · exact Finset.mem_of_mem_erase (ih h.2 hb)

theorem Unwinds.push (h : Unwinds live F bs live' (G.coalesced b.tier b.index))
    (hb : b ∉ live') : Unwinds live F (b :: bs) (insert b live') G := by
  refine ⟨Finset.mem_insert_self b live', ?_⟩
  rwa [Finset.erase_insert hb]

/-- The outstanding ranges are those of live blocks, whose release leads back to the start. -/
def Returns (p : Buddy) (live : Finset Block) (F : FreeLists) (q : Buddy) (stack : List Span) :
    Prop :=
  ∃ bs live' G, q.Sound live' G ∧ q.tiers = p.tiers ∧ stack = bs.map p.tiers.span ∧
    Unwinds live F bs live' G

theorem Returns.alloc_cases (h : p.Returns live F q stack) (size : Nat) :
    alloc size q = .ok none q ∨
    ∃ a r, alloc size q = .ok (some a) r ∧ p.Returns live F r (⟨a, sizeClass size⟩ :: stack) := by
  obtain ⟨bs, live', G, hq, ht, rfl, hu⟩ := h
  obtain ha | ⟨b, G', r, ha, hr, hb, hk, he, hG⟩ := hq.alloc_undone size
  · exact .inl ha
  · refine .inr ⟨_, r, ha, b :: bs, insert b live', G', hr, hk.tiers.trans ht, ?_, ?_⟩
    · rw [← he, ht]
      rfl
    · exact Unwinds.push (hG.symm ▸ hu) hb

theorem Returns.free_ok {s : Span} (h : p.Returns live F q (s :: stack)) :
    ∃ r, free s.start q = .ok () r ∧ (∀ hint, dealloc s.start hint q = .ok () r) ∧
      p.Returns live F r stack := by
  obtain ⟨bs, live', G, hq, ht, hs, hu⟩ := h
  cases bs with
  | nil => cases hs
  | cons b bs =>
    obtain ⟨rfl, rfl⟩ := List.cons.inj hs
    obtain ⟨hb, hu⟩ := hu
    obtain ⟨r, hr, hsr, hk, -⟩ := hq.free_coalesced hb
    have hstart : (p.tiers.span b).start = q.tiers.offset b := by
      rw [ht]
      rfl
    rw [hstart]
    exact ⟨r, hr, fun hint => (hq.dealloc_eq hb hint).trans hr, bs, _, _, hsr,
      hk.tiers.trans ht, rfl, hu⟩

theorem Returns.stored {s : Span} {o : Nat} (h : p.Returns live F q stack)
    (hs : s ∈ p.spans live ∨ s ∈ stack) (ho : s.Has o) (v : UInt8) :
    p.Returns live F { q with region := q.region.setByte o v } stack := by
  obtain ⟨bs, live', G, hq, ht, rfl, hu⟩ := h
  have hb : ∃ b ∈ live', p.tiers.span b = s := by
    obtain hs | hs := hs
    · obtain ⟨b, hb, rfl⟩ := mem_spans.1 hs
      exact ⟨b, hu.subset hb, rfl⟩
    · obtain ⟨b, hb, rfl⟩ := List.mem_map.1 hs
      exact ⟨b, hu.mem hb, rfl⟩
  obtain ⟨b, hb, rfl⟩ := hb
  exact ⟨bs, live', G, hq.stored hb (ht ▸ ho) v, ht, rfl, hu⟩

theorem Nested.returns (h : Nested p held q stack) (hp : p.Sound live F)
    (hl : held = p.spans live) : p.Returns live F q stack := by
  induction h with
  | start => exact ⟨[], live, F, hp, rfl, rfl, rfl, rfl⟩
  | allocated _ ha ih =>
    obtain hn | ⟨a, r, ha', hr⟩ := ih.alloc_cases _
    · rw [ha] at hn
      cases hn
    · rw [ha] at ha'
      cases ha'
      exact hr
  | refused _ ha ih =>
    obtain hn | ⟨a, r, ha', hr⟩ := ih.alloc_cases _
    · rw [ha] at hn
      cases hn
      exact ih
    · rw [ha] at ha'
      cases ha'
  | freed _ hf ih =>
    obtain ⟨r, hr, -, hret⟩ := ih.free_ok
    rw [hf] at hr
    cases hr
    exact hret
  | dealloced hint _ hd ih =>
    obtain ⟨r, -, hr, hret⟩ := ih.free_ok
    have hr := hr hint
    rw [hd] at hr
    cases hr
    exact hret
  | stored v _ hs ho ih => exact ih.stored (hl ▸ hs) ho v

theorem Sound.alloc_agrees (hp : p.Sound live F) (hr : r.Sound live F) (ht : r.tiers = p.tiers)
    (ha : alloc size p = .ok (some address) q) : ∃ t, alloc size r = .ok (some address) t := by
  cases hs : F.served p.tiers size with
  | none =>
    rw [hp.alloc_of_not_served hs] at ha
    cases ha
  | some found =>
    obtain ⟨q', hq', -⟩ := hp.alloc_of_served hs
    rw [ha] at hq'
    cases hq'
    rw [← ht] at hs ⊢
    obtain ⟨t, ht', -⟩ := hr.alloc_of_served hs
    exact ⟨t, ht'⟩

theorem Reachable.unwinds (h : Reachable host request p held) :
    (∀ q stack, Nested p held q stack → (∀ size, ∃ result r, alloc size q = .ok result r) ∧
      ∀ s rest, stack = s :: rest →
        ∃ r, free s.start q = .ok () r ∧ ∀ hint, dealloc s.start hint q = .ok () r) ∧
    (∀ q, Nested p held q [] → p.Restores q) ∧
    ∀ size address q, alloc size p = .ok (some address) q →
      ∃ r t, free address q = .ok () r ∧ alloc size r = .ok (some address) t := by
  obtain ⟨live, F, hp, hl⟩ := h.sound
  have back : ∀ q, Nested p held q [] → q.Sound live F ∧ q.tiers = p.tiers := by
    intro q hq
    obtain ⟨bs, live', G, hs, ht, hn, hu⟩ := hq.returns hp hl
    obtain rfl := List.map_eq_nil_iff.1 hn.symm
    obtain ⟨rfl, rfl⟩ := hu
    exact ⟨hs, ht⟩
  refine ⟨?_, ?_, ?_⟩
  · intro q stack hq
    have hret := hq.returns hp hl
    constructor
    · intro size
      obtain ha | ⟨a, r, ha, -⟩ := hret.alloc_cases size
      · exact ⟨none, q, ha⟩
      · exact ⟨some a, r, ha⟩
    · rintro s rest rfl
      obtain ⟨r, hr, hd, -⟩ := hret.free_ok
      exact ⟨r, hr, hd⟩
  · intro q hq
    obtain ⟨hs, ht⟩ := back q hq
    exact hp.restores hs ht
  · intro size address q ha
    have hq : Nested p held q [⟨address, sizeClass size⟩] := .allocated .start ha
    obtain ⟨r, hr, -⟩ := (hq.returns hp hl).free_ok
    obtain ⟨hs, ht⟩ := back r (.freed hq hr)
    obtain ⟨t, ht'⟩ := hp.alloc_agrees hs ht ha
    exact ⟨r, t, hr, ht'⟩

/-- In a pool of 64 bytes of which one quarter is held, another quarter and a half are asked for and
released in turn. -/
theorem unwinds_half : ∃ p held p₁ p₂ p₃ q, Reachable ⟨fun _ => true⟩ 64 p held ∧
    held = {⟨0, 16⟩} ∧ alloc 10 p = .ok (some 16) p₁ ∧ alloc 20 p₁ = .ok (some 32) p₂ ∧
    dealloc 32 5 p₂ = .ok () p₃ ∧ free 16 p₃ = .ok () q ∧ p.Restores q ∧
    ∃ r t, free 16 p₁ = .ok () r ∧ alloc 10 r = .ok (some 16) t := by
  have hrun : ∃ p₀ q, create ⟨fun _ => true⟩ 64 = .ok p₀ ∧
      (do
        let a ← (Call.alloc 10).run
        let b ← alloc 10
        let c ← alloc 20
        dealloc 32 5
        free 16
        return (a, b, c) : Op Buddy (Reply × Option Address × Option Address)) p₀ =
      .ok (.address (some 0), some 16, some 32) q := Op.exists_of_answerFrom (by decide +kernel)
  obtain ⟨p₀, q, hp₀, hq⟩ := hrun
  simp only [Op.bind_eq_ok, Op.pure_apply, EStateM.Result.ok.injEq, Prod.mk.injEq] at hq
  obtain ⟨_, p, hp, _, p₁, h₁, _, p₂, h₂, _, p₃, h₃, _, q, h₄, ⟨rfl, rfl, rfl⟩, rfl⟩ := hq
  have hp := (Reachable.created hp₀).returned _ hp
  have hn : Nested p (heldAfter ∅ (.alloc 10) (.address (some 0))) p₂
      [⟨32, sizeClass 20⟩, ⟨16, sizeClass 10⟩] := .allocated (.allocated .start h₁) h₂
  obtain ⟨-, hrestores, htwice⟩ := hp.unwinds
  exact ⟨p, _, p₁, p₂, p₃, q, hp, by decide, h₁, h₂, h₃, h₄,
    hrestores q (.freed (.dealloced 5 hn h₃) h₄), htwice 10 16 p₁ h₁⟩

end FixedPool.Buddy
