import FixedPool.Proofs.Buddy.Outcome

/-!
Resizing what is held of a buddy pool. A range that the request fits, and that is not twice as large
as it has to be, stays where it is. Any other goes where a request for that many bytes would be
served from while the range is still held; if none would be, nothing happens.
-/

namespace FixedPool.Buddy

variable {p q : Buddy} {live : Finset Block} {held : Finset Span} {F F' G : FreeLists} {b c : Block}
  {s : Span} {n : Nat} {host : Host} {request : Nat}

/-- The range `s` went to the address `a` with the bytes that `n` bytes have room for, nothing is
held at its old address, and what else is held has stayed as it was. -/
structure Moved (p : Buddy) (held : Finset Span) (s : Span) (n size : Nat) (a : Address)
    (q : Buddy) : Prop where
  sizeAt_new : q.sizeAt a = .ok size
  sizeAt_old : q.sizeAt s.start = .ok 0
  carries : p.region.Carries s.start (min s.size n) a q.region
  used : q.used + s.size = p.used + size
  sizeAt_other : ∀ t ∈ held, t ≠ s → q.sizeAt t.start = .ok t.size
  byte_other : ∀ t ∈ held, t ≠ s → ∀ o, t.Has o → q.region.byte o = p.region.byte o

/-- Resizing the range `s` moves it to the address that a request for `n` bytes answers. If that
request is declined, the answer is `kept` and the state stays. -/
def MovesOr (p : Buddy) (held : Finset Span) (s : Span) (n size : Nat) (kept : Option Address) :
    Prop :=
  (alloc n p = .ok none p ∧ realloc (some s.start) n p = .ok kept p) ∨
  ∃ a m q, alloc n p = .ok (some a) m ∧ realloc (some s.start) n p = .ok (some a) q ∧
    p.Moved held s n size a q

/-- What becomes of a held range that is resized to `n` bytes, for which the least block has `size`
bytes. -/
structure Resizes (p : Buddy) (held : Finset Span) (s : Span) (n size : Nat) : Prop where
  sizeAt : p.sizeAt s.start = .ok s.size
  stays : n ≤ s.size → s.size / 2 < n ∨ s.size = 16 →
    realloc (some s.start) n p = .ok (some s.start) p
  grows : s.size < n → p.MovesOr held s n size none
  shrinks : n ≤ s.size / 2 → 16 < s.size → p.MovesOr held s n size (some s.start)

namespace Acquires

/-- Giving up a live block for a new one changes the bytes in use by the difference in size. -/
theorem used_add_extent {m : Buddy} (h : p.Acquires live n c G m) (hp : p.Sound live F)
    (hb : b ∈ live) (hq : q.Sound ((insert c live).erase b) F') (ht : q.tiers = p.tiers) :
    q.used + p.tiers.extent b.tier = p.used + sizeClass n := by
  have hsum := Finset.sum_erase_add (insert c live) (fun l => p.tiers.extent l.tier)
    (Finset.mem_insert_of_mem hb)
  have hm := h.sound.used_eq
  rw [h.keeps.tiers, h.used_eq hp] at hm
  rw [hq.used_eq, ht, hsum, hm]

theorem sizeAt_old {m : Buddy} (h : p.Acquires live n c G m) (hp : p.Sound live F) (hb : b ∈ live)
    (hq : q.Sound ((insert c live).erase b) F') (ht : q.tiers = p.tiers) :
    q.sizeAt (p.tiers.offset b) = .ok 0 := by
  apply hq.sizeAt_none
  intro l hl ho
  rw [ht] at ho
  obtain ⟨hne, hl⟩ := Finset.mem_erase.1 hl
  obtain rfl | hl := Finset.mem_insert.1 hl
  · exact h.offset_ne hb ho
  · exact hne (hp.eq_of_offset hl hb ho)

end Acquires

theorem Sound.moved (h : p.Sound live F) (hb : b ∈ live) (hm : p.tiers.Misfits b n)
    (hs : F.served p.tiers n = some (c, G)) :
    ∃ m q, alloc n p = .ok (some (p.tiers.offset c)) m ∧
      resize (p.tiers.offset b) n p = .ok (some (p.tiers.offset c)) q ∧
      p.Moved (p.spans live) (p.tiers.span b) n (sizeClass n) (p.tiers.offset c) q := by
  obtain ⟨m, hm', -⟩ := h.alloc_of_served hs
  obtain ⟨m', q, ha, hq, hsq, hk, -, hcopy⟩ := h.resize_of_served hb hm hs
  have hc : c ∈ (insert c live).erase b := by
    have hne : c ≠ b := fun he => ha.vacant b hb (he ▸ .refl b)
    exact Finset.mem_erase.2 ⟨hne, Finset.mem_insert_self c live⟩
  have hother : ∀ t ∈ p.spans live, t ≠ p.tiers.span b →
      ∃ l ∈ live.erase b, p.tiers.span l = t := by
    intro t ht hne
    obtain ⟨l, hl, rfl⟩ := mem_spans.1 ht
    exact ⟨l, Finset.mem_erase.2 ⟨fun he => hne (he ▸ rfl), hl⟩, rfl⟩
  refine ⟨m, q, hm', hq, ?_, ha.sizeAt_old h hb hsq hk.tiers, hcopy,
    ha.used_add_extent h hb hsq hk.tiers, ?_, ?_⟩
  · have hsize := hsq.sizeAt_some hc
    rwa [hk.tiers, ha.extent_eq] at hsize
  · intro t ht hne
    obtain ⟨l, hl, rfl⟩ := hother t ht hne
    have hsize := hsq.sizeAt_some (Finset.erase_subset_erase b (Finset.subset_insert c live) hl)
    rwa [hk.tiers] at hsize
  · intro t ht hne o ho
    obtain ⟨l, hl, rfl⟩ := hother t ht hne
    exact hk.byte l hl o ho

theorem Sound.movesOr (h : p.Sound live F) (hb : b ∈ live) (hn : n ≠ 0)
    (hm : p.tiers.Misfits b n) {kept : Option Address}
    (hkept : F.served p.tiers n = none → resize (p.tiers.offset b) n p = .ok kept p) :
    p.MovesOr (p.spans live) (p.tiers.span b) n (sizeClass n) kept := by
  have hrun : realloc (some (p.tiers.offset b)) n = resize (p.tiers.offset b) n := if_neg hn
  cases hs : F.served p.tiers n with
  | none =>
    left
    refine ⟨h.alloc_of_not_served hs, ?_⟩
    exact (congrFun hrun p).trans (hkept hs)
  | some found =>
    right
    obtain ⟨m, q, hm, hq, hmoved⟩ := h.moved hb hm hs
    exact ⟨_, m, q, hm, (congrFun hrun p).trans hq, hmoved⟩

theorem Sound.resizes (h : p.Sound live F) (hb : b ∈ live) (hn : n ≠ 0) :
    p.Resizes (p.spans live) (p.tiers.span b) n (sizeClass n) where
  sizeAt := h.sizeAt_some hb
  stays := by
    intro hle hlarge
    have hrun : realloc (some (p.tiers.offset b)) n = resize (p.tiers.offset b) n := if_neg hn
    refine (congrFun hrun p).trans (h.resize_of_fits hb hle ?_)
    rintro (hlt | ⟨hhalf, hleast⟩)
    · exact absurd hle (Nat.not_le_of_gt hlt)
    · obtain hlarge | hlarge := hlarge
      · exact absurd hhalf (Nat.not_le_of_gt hlarge)
      · exact absurd hlarge (Nat.ne_of_gt hleast)
  grows := fun hlt => h.movesOr hb hn (.inl hlt) (h.resize_of_not_served hb hlt)
  shrinks := by
    intro hhalf hleast
    have hle := Nat.le_trans hhalf (Nat.div_le_self _ 2)
    exact h.movesOr hb hn (.inr ⟨hhalf, hleast⟩) fun hs => h.resize_of_fits hb hle fun _ => hs

theorem Reachable.resizes_held (h : Reachable host request p held) (hs : s ∈ held) (hn : n ≠ 0) :
    ∃ size, IsLeast {m | (∃ k, m = 16 * 2 ^ k) ∧ n ≤ m} size ∧ p.Resizes held s n size := by
  obtain ⟨live, F, hsound, rfl⟩ := h.sound
  obtain ⟨b, hb, rfl⟩ := mem_spans.1 hs
  exact ⟨sizeClass n, Tiers.sizeClass_isLeast n, hsound.resizes hb hn⟩

/-- A held quarter of 64 bytes is resized to 30 bytes. -/
theorem resizes_held_growing : ∃ p held, Reachable ⟨fun _ => true⟩ 64 p held ∧ ⟨0, 16⟩ ∈ held ∧
    ∃ size, IsLeast {m | (∃ k, m = 16 * 2 ^ k) ∧ 30 ≤ m} size ∧
      p.Resizes held ⟨0, 16⟩ 30 size := by
  have h₀ : Reachable ⟨fun _ => true⟩ 64 _ _ := .created rfl
  have h₁ := h₀.returned (.alloc 10) (by set_option maxRecDepth 100000 in rfl)
  exact ⟨_, _, h₁, by decide, h₁.resizes_held (by decide) (by decide)⟩

end FixedPool.Buddy
