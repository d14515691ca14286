import FixedPool.Proofs.Linear.Contract

/-!
What a resize of a held cell leaves behind. The size of the old cell is not known, so that the copy
to the new cell may run on through the headers and payloads behind the old one; yet it lands in the
new cell, and the old cell ends up flagged below it.
-/

namespace FixedPool.Linear

/-- The held cell at an offset, of `m` bytes, was moved to a new one for `n` bytes at the address
`a`. Apart from the old header and from the copy, the state is that of an allocation alone. -/
structure Moved (p : Linear) (leases : Leases) (cell m n a : Nat) (alone q : Linear) : Prop where
  carries : p.region.Carries (cell + 8) (min m n) a q.region
  cursor_eq : q.cursor = alone.cursor
  top_eq : q.top = alone.top
  peak_eq : q.peak = alone.peak
  flagged : ∃ h, p.header cell = .ok (some h) ∧ h.freed = false ∧
    q.header cell = .ok (some { h with freed := true }) ∧
    q.region.word (cell + 4) = p.region.word (cell + 4)
  headers : ∃ cells, p.Chain leases p.top p.cursor cells ∧
    ∀ c ∈ cells, c ≠ cell → ∀ i, c ≤ i → i < c + 8 → q.region.byte i = p.region.byte i
  payloads : ∀ c k, leases c = some ⟨k, false⟩ → ∀ o, (payload c k).Has o →
    q.region.byte o = p.region.byte o
  frame : ∀ i, i < cell ∨ cell + 8 ≤ i → i < a ∨ a + n ≤ i →
    q.region.byte i = alone.region.byte i

variable {p q r : Linear} {leases : Leases} {cells : List Nat} {cell m n stop : Nat} {h : Header}
  {host : Host} {request : Nat}

/-! ### The move -/

/-- The pool after the cell behind a header was moved to a new one on top. -/
def withMove (p : Linear) (cell n : Nat) (h : Header) : Linear :=
  (p.withCopy (cell + 8) n).withHeader cell { h with freed := true }

@[simp] theorem cursor_withMove (p : Linear) (cell n : Nat) (h : Header) :
    (p.withMove cell n h).cursor = p.cursor + cellExtent n := by
  rw [withMove, cursor_withHeader, cursor_withCopy]

@[simp] theorem top_withMove (p : Linear) (cell n : Nat) (h : Header) :
    (p.withMove cell n h).top = p.cursor := by
  rw [withMove, top_withHeader, top_withCopy]

@[simp] theorem peak_withMove (p : Linear) (cell n : Nat) (h : Header) :
    (p.withMove cell n h).peak = max p.peak (p.cursor + cellExtent n) := by
  rw [withMove, peak_withHeader, peak_withCopy]

namespace Chained

theorem byte_withMove_eq (hp : p.Chained leases cells) (hf : p.Fits n) (hc : cell + 8 < p.cursor)
    (h : Header) {i : Nat} (hi : i < cell ∨ cell + 8 ≤ i)
    (hi' : i < p.cursor + 8 ∨ p.cursor + 8 + n ≤ i) :
    (p.withMove cell n h).region.byte i = (p.withCell n).region.byte i := by
  have ha : cell + 8 < p.region.size := Nat.lt_of_lt_of_le hc hp.cursor_le
  have hlen := Nat.min_le_left n (p.cursor - (cell + 8))
  rw [withMove, byte_withHeader _ _ hi]
  apply hp.byte_withCopy hf ha
  exact hi'.imp_right fun hle => Nat.le_trans (Nat.add_le_add_left hlen _) hle

/-- Below the cursor only the old header changes. -/
theorem byte_withMove (hp : p.Chained leases cells) (hf : p.Fits n) (hc : cell + 8 < p.cursor)
    (h : Header) {i : Nat} (hi : i < cell ∨ cell + 8 ≤ i) (hlt : i < p.cursor) :
    (p.withMove cell n h).region.byte i = p.region.byte i := by
  rw [hp.byte_withMove_eq hf hc h hi (.inl (Nat.lt_add_right 8 hlt)), byte_withCell p n hlt]

theorem carries_withMove (hp : p.Chained leases cells) (hf : p.Fits n)
    (hl : leases cell = some ⟨m, false⟩) (hc : cell + 8 < p.cursor) (h : Header) :
    p.region.Carries (cell + 8) (min m n) (p.cursor + 8) (p.withMove cell n h).region := by
  have hend := hp.end_le hl
  have hm := cellExtent_ge m
  have hn := cellExtent_ge n
  have hfit := hf.2
  have hcur := hp.cursor_le
  have hs := p.size_withCell n
  -- What lies between the old payload and the cursor is at least the old payload.
  have hlen : min m n ≤ min n (p.cursor - (cell + 8)) := by omega
  have hsource : cell + 8 + min n (p.cursor - (cell + 8)) ≤ p.cursor := by omega
  have hcopy : (p.withCell n).region.Carries (cell + 8) (min n (p.cursor - (cell + 8))) (p.cursor + 8)
      (p.withCopy (cell + 8) n).region := by
    rw [region_withCopy]
    exact Region.carries_move (by omega) (by omega)
  intro i hi
  rw [withMove, byte_withHeader _ _ (.inr (by omega)), hcopy i (Nat.lt_of_lt_of_le hi hlen),
    byte_withCell p n (by omega)]

theorem header_withMove (hp : p.Chained leases cells) (hc : cell + 8 < p.cursor)
    (hh : p.header cell = .ok (some h)) :
    (p.withMove cell n h).header cell = .ok (some { h with freed := true }) ∧
      (p.withMove cell n h).region.word (cell + 4) = p.region.word (cell + 4) := by
  have hle : cell + 8 ≤ p.region.size := Nat.le_trans (Nat.le_of_lt hc) hp.cursor_le
  have hs := p.size_withCopy (cell + 8) n
  have hb := below_lt_of_header hp.size_lt hle hh
  constructor
  · exact header_withHeader (hs.trans_lt hp.size_lt) (hle.trans_eq hs.symm) hb
  · rw [header_eq hp.size_lt hle, Except.ok.injEq] at hh
    rw [withMove, region_withHeader, Region.word_setWord]
    · exact Header.check_of_decode hh true
    · rw [Region.size_setWord, hs]
      exact hle

theorem move_held (hp : p.Chained leases cells) (hf : p.Fits n)
    (hl : leases cell = some ⟨m, false⟩) (hc : cell + 8 < p.cursor) :
    ∃ h, p.header cell = .ok (some h) ∧ h.freed = false ∧
      move (cell + 8) n p = .ok (some (p.cursor + 8)) (p.withMove cell n h) := by
  have ha : cell + 8 < p.region.size := Nat.lt_of_lt_of_le hc hp.cursor_le
  obtain ⟨hd, h, hh, hfr⟩ := hp.live_header hl
  have hy := hp.yields_copy hf ha none
  obtain ⟨cells', hq⟩ := hy.chained
  have hhq : (p.withCopy (cell + 8) n).header cell = .ok (some h) := by
    rw [header_congr hy.size hp.size_lt (Nat.le_of_lt ha), hh]
    intro i _ hi
    exact hy.byte i (Nat.lt_trans hi hc) nofun
  have hcq : cell + 8 < (p.withCopy (cell + 8) n).cursor :=
    Nat.lt_trans hc (p.cursor_lt_withCopy (cell + 8) n)
  have hfree := hq.free_eq hd hcq hhq hfr
  -- The new cell is on top, so that the old one is only flagged.
  have hne : cell ≠ (p.withCopy (cell + 8) n).top := by
    rw [top_withCopy]
    exact Nat.ne_of_lt (Nat.lt_of_le_of_lt (Nat.le_add_right cell 8) hc)
  rw [if_neg hne] at hfree
  refine ⟨h, hh, hfr, ?_⟩
  rw [hp.move_eq ha hf]
  exact Op.bind_ok _ hfree

theorem moved (hp : p.Chained leases cells) (hf : p.Fits n) (hl : leases cell = some ⟨m, false⟩)
    (hc : cell + 8 < p.cursor) (hh : p.header cell = .ok (some h)) (hfr : h.freed = false) :
    p.Moved leases cell m n (p.cursor + 8) (p.withCell n) (p.withMove cell n h) where
  carries := hp.carries_withMove hf hl hc h
  cursor_eq := by rw [cursor_withMove, cursor_withCell]
  top_eq := by rw [top_withMove, top_withCell]
  peak_eq := by rw [peak_withMove, peak_withCell]
  flagged := ⟨h, hh, hfr, hp.header_withMove hc hh⟩
  headers := by
    refine ⟨cells, hp.chain, ?_⟩
    intro c hm hne i hi hi'
    obtain ⟨hd, -⟩ := hp.live_header hl
    have hdc := hp.chain.dvd.2 c hm
    have hlt := hp.chain.lt_of_mem hm
    -- Headers begin at multiples of 8, so that two of them share no byte.
    exact hp.byte_withMove hf hc h (by omega) (by omega)
  payloads := by
    intro c k hk o ho
    obtain ⟨ho, ho'⟩ : c + 8 ≤ o ∧ o < c + 8 + k := ho
    have hend := hp.end_le hk
    have hx := cellExtent_ge k
    have hlt : o < c + cellExtent k := by omega
    have hout := hp.payload_apart hk ho hlt (hp.mem_of_leased cell m hl)
    exact hp.byte_withMove hf hc h hout (Nat.lt_of_lt_of_le hlt hend)
  frame := fun _ hi hi' => hp.byte_withMove_eq hf hc h hi hi'

/-! ### The release of the new cell -/

theorem cursor_le_of_ends (hp : p.Chained leases cells) (ht : p.Trim leases)
    (hle : ∀ c k, leases c = some ⟨k, false⟩ → c + cellExtent k ≤ stop) : p.cursor ≤ stop := by
  obtain hc | hc := Nat.eq_zero_or_pos p.cursor
  · rw [hc]
    exact Nat.zero_le _
  · obtain ⟨k, hk⟩ := ht.top_held hc
    rw [hp.cursor_eq hc hk]
    exact hle p.top k hk

/-- The cells that stay held when a cell was moved and its new cell released end at or below the old
header, if the old cell was the highest one. -/
theorem end_le_of_moved (hp : p.Chained leases cells) (hl : leases cell = some ⟨m, false⟩)
    (hh : ∀ c k, leases c = some ⟨k, false⟩ → c ≤ cell) {c k : Nat}
    (hk : ((leases.acquire p.cursor n).release (cell + 8)).release (p.cursor + 8) c =
      some ⟨k, false⟩) : c + cellExtent k ≤ cell := by
  have hne : c ≠ p.cursor := fun he => Leases.ne_of_release_live hk (congrArg (· + 8) he)
  have hk := Leases.release_eq_live hk
  have hne' : c ≠ cell := fun he => Leases.ne_of_release_live hk (congrArg (· + 8) he)
  have hk := Leases.release_eq_live hk
  rw [Leases.acquire_of_ne leases n hne] at hk
  have hc := hh c k hk
  have hx := cellExtent_ge m
  obtain hle | hle := hp.chain.apart (hp.mem_of_leased c k hk) (hp.mem_of_leased cell m hl) hne' hk hl
  · exact hle
  · omega

theorem free_moved {cells' : List Nat} (hp : p.Chained leases cells)
    (hl : leases cell = some ⟨m, false⟩) (hc : cell < p.cursor)
    (hh : ∀ c k, leases c = some ⟨k, false⟩ → c ≤ cell)
    (hr : r.Chained ((leases.acquire p.cursor n).release (cell + 8)) cells')
    (ht : r.Trim ((leases.acquire p.cursor n).release (cell + 8))) :
    ∃ s, free (p.cursor + 8) r = .ok () s ∧ s.cursor ≤ cell := by
  have hnew : (leases.acquire p.cursor n).release (cell + 8) p.cursor = some ⟨n, false⟩ := by
    rw [Leases.release_of_ne _ (by omega), Leases.acquire_self]
  obtain ⟨s, hs⟩ := hr.free_held ht ⟨p.cursor, n, hnew, rfl⟩
  have hy := hr.yields_free hs
  obtain ⟨cells'', hsc⟩ := hy.chained
  exact ⟨s, hs, hsc.cursor_le_of_ends (hy.trim ht) fun c k => hp.end_le_of_moved hl hh⟩

end Chained

/-- A resize of a held cell declines with an allocation of that size, and else answers the address
that the allocation would. If the old cell is the highest one that is held, the release of the new
cell drops both, whatever is written in between. -/
theorem Reachable.moves_held (h : Reachable host request p leases)
    (hl : leases cell = some ⟨m, false⟩) (hn : n ≠ 0) :
    (alloc n p = .ok none p ∧ realloc (some (cell + 8)) n p = .ok none p) ∨
    ∃ a alone q, alloc n p = .ok (some a) alone ∧ realloc (some (cell + 8)) n p = .ok (some a) q ∧
      p.Moved leases cell m n a alone q ∧
      ((∀ c k, leases c = some ⟨k, false⟩ → c ≤ cell) → ∀ r,
        Reachable host request r
          (leases.after (.realloc (some (cell + 8)) n) (.address (some a))) →
        ∃ s, free a r = .ok () s ∧ s.cursor ≤ cell) := by
  obtain ⟨cells, hp⟩ := h.chained
  have hc := hp.held_lt h.trim ⟨cell, m, hl, rfl⟩
  have hr : realloc (some (cell + 8)) n = move (cell + 8) n := if_neg hn
  rw [hr]
  by_cases hf : p.Fits n
  · obtain ⟨g, hg, hfr, hrun⟩ := hp.move_held hf hl hc
    refine .inr ⟨_, _, _, hp.alloc_eq hf, hrun, hp.moved hf hl hc hg hfr, ?_⟩
    intro hh r hr
    obtain ⟨cells', hrc⟩ := hr.chained
    exact hp.free_moved hl (by omega) hh hrc hr.trim
  · exact .inl ⟨hp.alloc_none hf, hp.move_none (Nat.lt_of_lt_of_le hc hp.cursor_le) hf⟩

/-- The only cell of a pool of 64 bytes moves to a new one behind it, with whose release the pool is
empty. -/
theorem moves_held_growing : ∃ p leases alone q, Reachable ⟨fun _ => true⟩ 64 p leases ∧
    leases 0 = some ⟨10, false⟩ ∧ alloc 20 p = .ok (some 32) alone ∧
    realloc (some 8) 20 p = .ok (some 32) q ∧ p.Moved leases 0 10 20 32 alone q ∧
    ∃ s, free 32 q = .ok () s ∧ s.cursor ≤ 0 := by
  have h₀ : Reachable ⟨fun _ => true⟩ 64 _ _ := .created rfl
  have h₁ := h₀.returned (.alloc 10) rfl
  have hl : Leases.acquire (fun _ => none) 0 10 0 = some ⟨10, false⟩ := rfl
  obtain ⟨ha, -⟩ | ⟨a, alone, q, ha, hq, hm, hs⟩ := h₁.moves_held (n := 20) hl (by decide)
  · cases ha
  cases ha
  have h₂ := h₁.returned (.realloc (some 8) 20) (Op.map_ok _ hq)
  refine ⟨_, _, _, q, h₁, hl, rfl, hq, hm, hs ?_ q h₂⟩
  intro c k hk
  by_contra hc
  have hne : c ≠ 0 := fun he => hc (Nat.le_of_eq he)
  have hnone := Leases.acquire_of_ne (fun _ => none) 10 hne
  exact Option.some_ne_none _ (hk.symm.trans hnone)

end FixedPool.Linear
