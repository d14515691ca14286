import FixedPool.Proofs.Linear.Calls

/-!
What a call leaves behind besides a chain of cells. The cell on top is never a released one, and
below the cursor no bytes change but those of the header in front of the address of the call.
-/

namespace FixedPool.Linear

variable {p q r : Linear} {leases leases' leases'' : Leases} {cells : List Nat}
  {cell size address : Nat} {pointer : Option Address} {h : Header} {cause : Fault}

namespace Leases

/-- A cell that was not released begins at the address. -/
def Held (leases : Leases) (address : Address) : Prop :=
  ∃ cell size, leases cell = some ⟨size, false⟩ ∧ address = cell + 8

theorem acquire_self (leases : Leases) (cell size : Nat) :
    leases.acquire cell size cell = some ⟨size, false⟩ :=
  Function.update_self ..

theorem acquire_of_ne {c : Nat} (leases : Leases) (size : Nat) (hc : c ≠ cell) :
    leases.acquire cell size c = leases c :=
  Function.update_of_ne hc ..

theorem release_of_ne {c : Nat} (leases : Leases) (hc : c + 8 ≠ address) :
    leases.release address c = leases c :=
  if_neg hc

theorem ne_of_release_live {c : Nat} (hl : leases.release address c = some ⟨size, false⟩) :
    c + 8 ≠ address := by
  intro he
  rw [release, if_pos he] at hl
  obtain ⟨l, -, hl⟩ := Option.map_eq_some_iff.1 hl
  cases hl

theorem release_eq_some {c : Nat} {released : Bool}
    (hl : leases.release address c = some ⟨size, released⟩) :
    ∃ released', leases c = some ⟨size, released'⟩ := by
  unfold release at hl
  split at hl
  · obtain ⟨l, hc, he⟩ := Option.map_eq_some_iff.1 hl
    cases he
    exact ⟨l.released, hc⟩
  · exact ⟨released, hl⟩

end Leases

/-- The top cell was not released, and every cell was leased for at least one byte. -/
structure Trim (p : Linear) (leases : Leases) : Prop where
  top_held : 0 < p.cursor → ∃ size, leases p.top = some ⟨size, false⟩
  size_ne_zero : ∀ cell size released, leases cell = some ⟨size, released⟩ → size ≠ 0

/-- One state and its leases follow others by a call that is given the address, if any. -/
structure Yields (p : Linear) (leases : Leases) (pointer : Option Address) (q : Linear)
    (leases' : Leases) : Prop where
  chained : ∃ cells, q.Chained leases' cells
  trim : p.Trim leases → q.Trim leases'
  size : q.region.size = p.region.size
  byte : ∀ i < p.cursor, (∀ address, pointer = some address → i + 8 < address ∨ address ≤ i) →
    q.region.byte i = p.region.byte i

theorem Chained.yields_refl (hp : p.Chained leases cells) (pointer : Option Address) :
    p.Yields leases pointer p leases :=
  ⟨⟨cells, hp⟩, id, rfl, fun _ _ _ => rfl⟩

theorem Yields.trans (hq : p.Yields leases pointer q leases') (hc : p.cursor ≤ q.cursor)
    (hr : q.Yields leases' pointer r leases'') : p.Yields leases pointer r leases'' where
  chained := hr.chained
  trim := fun ht => hr.trim (hq.trim ht)
  size := hr.size.trans hq.size
  byte := fun i hi ho => (hr.byte i (Nat.lt_of_lt_of_le hi hc) ho).trans (hq.byte i hi ho)

/-! ### A new cell -/

theorem byte_withCell (p : Linear) (size : Nat) {i : Nat} (hi : i < p.cursor) :
    (p.withCell size).region.byte i = p.region.byte i := by
  rw [region_withCell, byte_withHeader p _ (.inl hi)]

/-- A cell is put on top, and anything written behind its header. -/
theorem Chained.yields_fill (hp : p.Chained leases cells) (hf : p.Fits size) {r : Region}
    (hs : r.size = p.region.size)
    (hb : ∀ i, i < p.cursor + 8 → r.byte i = (p.withCell size).region.byte i)
    (pointer : Option Address) :
    p.Yields leases pointer { p.withCell size with region := r } (leases.acquire p.cursor size) where
  chained := ⟨_, hp.withCell_fill hf hs hb⟩
  trim := by
    intro ht
    constructor
    · intro _
      refine ⟨size, ?_⟩
      rw [top_withCell, Leases.acquire_self]
    · intro c n released hl
      by_cases hc : c = p.cursor
      · rw [hc, Leases.acquire_self] at hl
        cases hl
        exact hf.1
      · rw [Leases.acquire_of_ne _ _ hc] at hl
        exact ht.size_ne_zero c n released hl
  size := hs
  byte := by
    intro i hi _
    rw [hb i (by omega), byte_withCell p size hi]

theorem Chained.yields_withCell (hp : p.Chained leases cells) (hf : p.Fits size)
    (pointer : Option Address) :
    p.Yields leases pointer (p.withCell size) (leases.acquire p.cursor size) :=
  hp.yields_fill hf (p.size_withCell size) (fun _ _ => rfl) pointer

theorem Chained.yields_copy (hp : p.Chained leases cells) (hf : p.Fits size)
    (ha : address < p.region.size) (pointer : Option Address) :
    p.Yields leases pointer (p.withCopy address size) (leases.acquire p.cursor size) := by
  have hs := p.size_withCopy address size
  have hb : ∀ i, i < p.cursor + 8 →
      (p.withCopy address size).region.byte i = (p.withCell size).region.byte i :=
    fun i hi => hp.byte_withCopy hf ha (.inl hi)
  rw [region_withCopy] at hs hb
  rw [withCopy]
  exact hp.yields_fill hf hs hb pointer

/-! ### A released cell -/

/-- Rolling back ends on a cell that is not flagged, or drops all cells. -/
theorem header_of_retreatWithin {steps : Nat} (hrun : retreatWithin steps cell h p = .ok () q) :
    q.cursor = 0 ∨ ∃ g, q.header q.top = .ok (some g) ∧ g.freed = false := by
  induction steps generalizing p cell h with
  | zero => cases hrun
  | succ steps ih =>
    by_cases hc : cell = 0
    · subst hc
      rw [retreatWithin_zero] at hrun
      cases hrun
      exact .inl rfl
    · rw [retreatWithin_succ hc] at hrun
      split at hrun
      next g hg =>
        split at hrun
        next => exact ih hrun
        next hf =>
          cases hrun
          exact .inr ⟨g, (header_of_region rfl _).trans hg, Bool.eq_false_iff.2 hf⟩
      next => cases hrun
      next => cases hrun

theorem Chained.top_held_of_header (hq : q.Chained leases cells) (hc : 0 < q.cursor)
    (hh : q.header q.top = .ok (some h)) (hf : h.freed = false) :
    ∃ size, leases q.top = some ⟨size, false⟩ := by
  obtain ⟨g, size, hg, hl, -⟩ := hq.chain.lease_of_mem (hq.top_eq hc)
  rw [hh, Except.ok.injEq, Option.some.injEq] at hg
  rw [← hg, hf] at hl
  exact ⟨size, hl⟩

theorem Chained.top_held_of_free {cells' : List Nat} (hp : p.Chained leases cells)
    (ht : p.Trim leases) (hrun : free address p = .ok () q)
    (hq : q.Chained (leases.release address) cells') (hc : 0 < q.cursor) :
    ∃ size, leases.release address q.top = some ⟨size, false⟩ := by
  obtain ⟨cause, -, he⟩ | ⟨c, h, rfl, hd, hlt, hh, hf⟩ := hp.free_refuses_or address
  · rw [hrun] at he
    cases he
  rw [hp.free_eq hd hlt hh hf] at hrun
  -- Only the release of the top cell moves the top, which then is where rolling back ended.
  by_cases htop : c = p.top
  · rw [if_pos htop] at hrun
    obtain hz | ⟨g, hg, hgf⟩ := header_of_retreatWithin hrun
    · omega
    · exact hq.top_held_of_header hc hg hgf
  · rw [if_neg htop] at hrun
    cases hrun
    obtain ⟨size, hl⟩ := ht.top_held (Nat.zero_lt_of_lt hlt)
    rw [top_withHeader, Leases.release_of_ne leases (by omega)]
    exact ⟨size, hl⟩

theorem Chained.yields_free (hp : p.Chained leases cells) (hrun : free address p = .ok () q) :
    p.Yields leases (some address) q (leases.release address) := by
  obtain ⟨cause, -, he⟩ | ⟨q', cells', he, hq, -, -, hs, hb⟩ := hp.free_cases address
  · rw [hrun] at he
    cases he
  rw [hrun] at he
  cases he
  refine ⟨⟨cells', hq⟩, ?_, hs, fun i _ ho => hb i (ho address rfl)⟩
  intro ht
  refine ⟨hp.top_held_of_free ht hrun hq, ?_⟩
  intro c n released hl
  obtain ⟨released', hl⟩ := Leases.release_eq_some hl
  exact ht.size_ne_zero c n released' hl

/-! ### Held addresses -/

/-- A cell on top of the others takes no address away. -/
theorem Chained.held_acquire (hp : p.Chained leases cells) (ha : leases.Held address) (size : Nat) :
    (leases.acquire p.cursor size).Held address := by
  obtain ⟨c, n, hl, rfl⟩ := ha
  have hlt := hp.chain.lt_of_mem (hp.mem_of_leased c n hl)
  refine ⟨c, n, ?_, rfl⟩
  rw [Leases.acquire_of_ne leases size (by omega), hl]

theorem Chained.held_lt (hp : p.Chained leases cells) (ht : p.Trim leases)
    (ha : leases.Held address) : address < p.cursor := by
  obtain ⟨c, n, hl, rfl⟩ := ha
  have hle := hp.end_le hl
  have hn := ht.size_ne_zero c n false hl
  have := cellExtent_ge n
  omega

theorem Chained.free_held (hp : p.Chained leases cells) (ht : p.Trim leases)
    (ha : leases.Held address) : ∃ q, free address p = .ok () q := by
  have hlt := hp.held_lt ht ha
  obtain ⟨c, n, hl, rfl⟩ := ha
  obtain ⟨hd, h, hh, hf⟩ := hp.live_header hl
  obtain ⟨q, -, hq, -⟩ := hp.free_flag hd hlt hh hf
  exact ⟨q, hq⟩

theorem Chained.not_held_of_free (hp : p.Chained leases cells) (ht : p.Trim leases)
    (hrun : free address p = .error cause q) : ¬ leases.Held address := by
  intro ha
  obtain ⟨q', hq⟩ := hp.free_held ht ha
  rw [hrun] at hq
  cases hq

/-! ### Moving a cell -/

/-- A move refuses its address, perhaps after it has put the new cell on top, or finds no room for
that cell, or releases the old cell when it has copied it to the new one. -/
theorem Chained.move_cases (hp : p.Chained leases cells) (address size : Nat) :
    (∃ cause q, move address size p = .error cause q ∧ IsRefusal cause ∧
      (p.Trim leases → ¬ leases.Held address) ∧
      (q = p ∨ p.Fits size ∧ address < p.region.size ∧ q = p.withCopy address size)) ∨
    move address size p = .ok none p ∨
    (p.Fits size ∧ address < p.region.size ∧ ∃ q,
      move address size p = .ok (some (p.cursor + 8)) q ∧
      free address (p.withCopy address size) = .ok () q) := by
  by_cases ha : address < p.region.size
  · by_cases hf : p.Fits size
    · have hy := hp.yields_copy hf ha (some address)
      have hrun := hp.move_eq ha hf
      obtain ⟨cells', hq⟩ := hy.chained
      obtain ⟨cause, hcause, he⟩ | ⟨q, -, he, -⟩ := hq.free_cases address
      · refine .inl ⟨cause, _, hrun.trans (Op.bind_error _ he), hcause, ?_, .inr ⟨hf, ha, rfl⟩⟩
        intro ht hh
        exact hq.not_held_of_free (hy.trim ht) he (hp.held_acquire hh size)
      · refine .inr (.inr ⟨hf, ha, q, ?_, he⟩)
        rw [hrun, Op.bind_ok _ he, Op.pure_apply]
    · exact .inr (.inl (hp.move_none ha hf))
  · rw [Nat.not_lt] at ha
    refine .inl ⟨.foreignAddress, p, move_error ha size, .inl rfl, ?_, .inl rfl⟩
    intro ht hh
    have hlt := hp.held_lt ht hh
    have hle := hp.cursor_le
    omega

end FixedPool.Linear
