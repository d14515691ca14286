import FixedPool.Proofs.Linear.Contract

/-!
Addresses of cells that were released. As long as no new cell covers the header in front of such an
address, a release of it is refused: below the cursor the flag in that header tells that the cell is
gone, and from the cursor on there are no cells. A resize looks for the old cell only after its new
one is on top, and is led astray where the new cell covers that header.
-/

namespace FixedPool.Linear

set_option autoImplicit true in
/-- The states since the cell at an offset was released, for as long as no new cell has covered its
header. That header is flagged, unless the release was by a reset. -/
inductive Retired (host : Host) (request cell : Nat) : Bool → Linear → Leases → Prop
  | released (c : Call) : Reachable host request p leases → leases cell = some ⟨size, false⟩ →
      c.run p = .ok reply q → (∀ n, leases.after c reply cell ≠ some ⟨n, false⟩) →
      Retired host request cell (c ≠ .reset) q (leases.after c reply)
  | returned (c : Call) : Retired host request cell flagged p leases → c.run p = .ok reply q →
      (∀ a n, reply = .address (some a) → c.request? = some n →
        Span.Apart ⟨a - 8, n + 8⟩ ⟨cell, 8⟩) →
      Retired host request cell flagged q (leases.after c reply)
  | faulted (c : Call) : Retired host request cell flagged p leases → c.run p = .error cause q →
      (∀ n, c.request? = some n → p.cursor < q.cursor →
        Span.Apart ⟨p.cursor, n + 8⟩ ⟨cell, 8⟩) →
      Retired host request cell flagged q (leases.afterFault p q c)
  | stored (v : UInt8) : Retired host request cell flagged p leases →
      leases c = some ⟨size, false⟩ → c + 8 ≤ offset → offset < c + cellExtent size →
      Retired host request cell flagged { p with region := p.region.setByte offset v } leases

/-- The header at an offset says whether it is flagged, lies in no cell that is held, and is flagged
if it is below the cursor. -/
structure Withdrawn (p : Linear) (leases : Leases) (cell : Nat) (flagged : Bool) : Prop where
  dvd : 8 ∣ cell
  inside : cell + 8 < p.region.size
  header : ∃ h, p.header cell = .ok (some h) ∧ h.freed = flagged
  apart : ∀ c n, leases c = some ⟨n, false⟩ → c + cellExtent n ≤ cell ∨ cell + 8 ≤ c
  flagged_below : cell < p.cursor → flagged = true

variable {p q : Linear} {leases leases' : Leases} {cells : List Nat} {cell n size address : Nat}
  {flagged : Bool} {c : Call} {reply : Reply} {cause : Fault} {h : Header} {r : Region}
  {host : Host} {request : Nat}

theorem Retired.reachable (h : Retired host request cell flagged p leases) :
    Reachable host request p leases := by
  induction h with
  | released c h _ hrun _ => exact h.returned c hrun
  | returned c _ hrun _ ih => exact ih.returned c hrun
  | faulted c _ hrun _ ih => exact ih.faulted c hrun
  | stored v _ hl ho ho' ih => exact ih.stored v hl ho ho'

/-! ### What keeps a header withdrawn -/

namespace Withdrawn

/-- A release is refused: below the cursor because of the flag, which the caller is told, and from
the cursor on because there are no cells. -/
theorem free_eq (h : p.Withdrawn leases cell flagged) (hp : p.Chained leases cells) :
    free (cell + 8) p =
      .error (if cell + 8 < p.cursor then .doubleFree cell else .notLiveCell) p := by
  have hat := cellAt_eq hp.cursor_le (cell + 8)
  by_cases hlt : cell + 8 < p.cursor
  · have hd : 8 ∣ cell + 8 := Nat.dvd_add h.dvd (Nat.dvd_refl 8)
    rw [if_pos ⟨hlt, hd, Nat.le_add_left 8 cell⟩, Nat.add_sub_cancel] at hat
    obtain ⟨g, hg, hf⟩ := h.header
    rw [h.flagged_below (Nat.lt_of_le_of_lt (Nat.le_add_right cell 8) hlt)] at hf
    rw [if_pos hlt]
    simp only [free, Op.bind_apply, Op.get_apply, Op.lift_apply, Op.throw_apply, hat, hg, hf,
      ↓reduceIte]
  · rw [if_neg fun ha => hlt ha.1] at hat
    rw [if_neg hlt]
    simp only [free, Op.bind_apply, Op.get_apply, Op.lift_apply, Op.throw_apply, hat]

theorem congr (h : p.Withdrawn leases cell flagged) (hp : p.Chained leases cells)
    (hs : q.region.size = p.region.size)
    (hb : ∀ i, cell ≤ i → i < cell + 8 → q.region.byte i = p.region.byte i)
    (hl : ∀ c n, leases' c = some ⟨n, false⟩ → c + cellExtent n ≤ cell ∨ cell + 8 ≤ c)
    (hc : cell < q.cursor → flagged = true) : q.Withdrawn leases' cell flagged where
  dvd := h.dvd
  inside := hs ▸ h.inside
  header := by
    rw [header_congr hs hp.size_lt (Nat.le_of_lt h.inside) hb]
    exact h.header
  apart := hl
  flagged_below := hc

theorem placed (h : p.Withdrawn leases cell flagged) (hp : p.Chained leases cells)
    (ha : Span.Apart ⟨p.cursor, n + 8⟩ ⟨cell, 8⟩) (hs : r.size = p.region.size)
    (hb : ∀ i, i < p.cursor + 8 ∨ p.cursor + 8 + n ≤ i →
      r.byte i = (p.withCell n).region.byte i) :
    Withdrawn { p.withCell n with region := r } (leases.acquire p.cursor n) cell flagged := by
  have ha : p.cursor + (n + 8) ≤ cell ∨ cell + 8 ≤ p.cursor := ha
  -- The padding behind the requested bytes ends before the next header can begin.
  have hx : p.cursor + cellExtent n ≤ cell ∨ cell + 8 ≤ p.cursor := by
    have hd := h.dvd
    have hdc := hp.dvd_cursor
    unfold cellExtent
    omega
  refine h.congr hp hs ?_ ?_ ?_
  · intro i hi hi'
    rw [hb i (by omega), region_withCell]
    exact byte_withHeader p _ (by omega)
  · intro c m hl
    obtain rfl | hc := eq_or_ne c p.cursor
    · rw [Leases.acquire_self] at hl
      cases hl
      exact hx
    · rw [Leases.acquire_of_ne _ _ hc] at hl
      exact h.apart c m hl
  · intro hlt
    rw [cursor_withCell] at hlt
    exact h.flagged_below (by omega)

theorem placed_copy (h : p.Withdrawn leases cell flagged) (hp : p.Chained leases cells)
    (hf : p.Fits n) (haddr : address < p.region.size)
    (ha : Span.Apart ⟨p.cursor, n + 8⟩ ⟨cell, 8⟩) :
    (p.withCopy address n).Withdrawn (leases.acquire p.cursor n) cell flagged := by
  have hs := p.size_withCopy address n
  have hb : ∀ i, i < p.cursor + 8 ∨ p.cursor + 8 + n ≤ i →
      (p.withCopy address n).region.byte i = (p.withCell n).region.byte i := by
    intro i hi
    have hmin := Nat.min_le_left n (p.cursor - address)
    exact hp.byte_withCopy hf haddr (by omega)
  rw [region_withCopy] at hs hb
  rw [withCopy]
  exact h.placed hp ha hs hb

theorem released (h : p.Withdrawn leases cell flagged) (hp : p.Chained leases cells)
    (hrun : free address p = .ok () q) :
    q.Withdrawn (leases.release address) cell flagged := by
  obtain ⟨cause, -, he⟩ | ⟨c, g, rfl, hd, -⟩ := hp.free_refuses_or address
  · rw [hrun] at he
    cases he
  obtain ⟨cause, -, he⟩ | ⟨q', cells', he, -, hc, -, hs, hb⟩ := hp.free_cases (c + 8)
  · rw [hrun] at he
    cases he
  rw [hrun] at he
  cases he
  have hne : c ≠ cell := by
    rintro rfl
    have he := h.free_eq hp
    rw [hrun] at he
    cases he
  have hdc := h.dvd
  refine h.congr hp hs ?_ ?_ fun hlt => h.flagged_below (Nat.lt_of_lt_of_le hlt hc)
  · intro i hi hi'
    exact hb i (by omega)
  · intro c' m hl
    exact h.apart c' m (Leases.release_eq_live hl)

theorem emptied (h : p.Withdrawn leases cell flagged) (hp : p.Chained leases cells) :
    Withdrawn { p with cursor := 0, top := 0, peak := 0 } (fun _ => none) cell flagged :=
  h.congr hp rfl (fun _ _ _ => rfl) nofun fun hlt => absurd hlt (Nat.not_lt_zero _)

theorem stored {c offset : Nat} (h : p.Withdrawn leases cell flagged) (hp : p.Chained leases cells)
    (hl : leases c = some ⟨size, false⟩) (ho : c + 8 ≤ offset) (ho' : offset < c + cellExtent size)
    (v : UInt8) :
    Withdrawn { p with region := p.region.setByte offset v } leases cell flagged := by
  have ha := h.apart c size hl
  refine h.congr hp (Region.size_setByte ..) ?_ h.apart h.flagged_below
  intro i hi hi'
  exact Region.byte_setByte_ne _ v (by omega)

theorem of_run (h : p.Withdrawn leases cell flagged) (hp : p.Chained leases cells)
    (hrun : c.run p = .ok reply q)
    (ha : ∀ a n, reply = .address (some a) → c.request? = some n →
      Span.Apart ⟨a - 8, n + 8⟩ ⟨cell, 8⟩) : q.Withdrawn (leases.after c reply) cell flagged := by
  have he := hp.ends hrun
  generalize leases.after c reply = leases' at he ⊢
  cases he with
  | declined => exact h
  | placed hn hf hs hb => exact h.placed hp (ha _ _ rfl hn) hs hb
  | released _ _ _ hfree => exact h.released hp hfree
  | moved _ hf haddr hfree =>
    obtain ⟨cells', hq⟩ := (hp.yields_copy hf haddr none).chained
    exact (h.placed_copy hp hf haddr (ha _ _ rfl rfl)).released hq hfree
  | emptied => exact h.emptied hp

theorem of_error (h : p.Withdrawn leases cell flagged) (hp : p.Chained leases cells)
    (hrun : c.run p = .error cause q)
    (ha : ∀ n, c.request? = some n → p.cursor < q.cursor →
      Span.Apart ⟨p.cursor, n + 8⟩ ⟨cell, 8⟩) :
    q.Withdrawn (leases.afterFault p q c) cell flagged := by
  cases hp.fails hrun with
  | refused =>
    rw [Leases.afterFault_self]
    exact h
  | @moving size address hf haddr =>
    rw [Leases.afterFault_withCopy]
    exact h.placed_copy hp hf haddr (ha size rfl (p.cursor_lt_withCopy address size))

end Withdrawn

/-! ### Releases -/

namespace Chained

theorem region_of_free (hp : p.Chained leases cells) (hd : 8 ∣ cell) (hc : cell + 8 < p.cursor)
    (hh : p.header cell = .ok (some h)) (hf : h.freed = false)
    (hrun : free (cell + 8) p = .ok () q) :
    q.region = (p.withHeader cell { h with freed := true }).region := by
  have hle : cell + 8 ≤ p.region.size := Nat.le_trans (Nat.le_of_lt hc) hp.cursor_le
  rw [hp.free_eq hd hc hh hf] at hrun
  by_cases htop : cell = p.top
  · rw [if_pos htop] at hrun
    have hb : h.below.toNat < 2 ^ 31 := below_lt_of_header hp.size_lt hle hh
    obtain ⟨q', -, hq, hr, -⟩ := (hp.flag hd hle hh).retreat_eq
      (by rw [top_withHeader, htop]) (by rw [cursor_withHeader]; omega)
      (header_withHeader hp.size_lt hle hb) rfl
    rw [hrun] at hq
    cases hq
    exact hr
  · rw [if_neg htop] at hrun
    cases hrun
    rfl

/-- Cells that are held lie apart from the header of any other cell of the chain. -/
theorem header_apart (hp : p.Chained leases cells) (hl : leases cell = some ⟨size, false⟩) {c : Nat}
    (hc : leases c = some ⟨n, false⟩) (hne : c ≠ cell) :
    c + cellExtent n ≤ cell ∨ cell + 8 ≤ c := by
  have hx := cellExtent_ge size
  have ha := hp.chain.apart (hp.mem_of_leased c n hc) (hp.mem_of_leased cell size hl) hne hc hl
  exact ha.imp_right fun hle => by omega

theorem withdrawn_of_free (hp : p.Chained leases cells) (ht : p.Trim leases)
    (hl : leases cell = some ⟨size, false⟩) (hrun : free (cell + 8) p = .ok () q) :
    q.Withdrawn (leases.release (cell + 8)) cell true := by
  have hlt := hp.held_lt ht ⟨cell, size, hl, rfl⟩
  have hle : cell + 8 ≤ p.region.size := Nat.le_trans (Nat.le_of_lt hlt) hp.cursor_le
  obtain ⟨hd, h, hh, hf⟩ := hp.live_header hl
  have hr := hp.region_of_free hd hlt hh hf hrun
  have hb : h.below.toNat < 2 ^ 31 := below_lt_of_header hp.size_lt hle hh
  have hq : q.header cell = .ok (some { h with freed := true }) := by
    rw [header_of_region hr]
    exact header_withHeader hp.size_lt hle hb
  refine ⟨hd, ?_, ⟨_, hq, rfl⟩, ?_, fun _ => rfl⟩
  · rw [hr, size_withHeader]
    exact Nat.lt_of_lt_of_le hlt hp.cursor_le
  · intro c n hc
    have hne : c ≠ cell := by
      rintro rfl
      exact Leases.ne_of_release_live hc rfl
    exact hp.header_apart hl (Leases.release_eq_live hc) hne

theorem withdrawn_of_reset (hp : p.Chained leases cells) (ht : p.Trim leases)
    (hl : leases cell = some ⟨size, false⟩) :
    Withdrawn { p with cursor := 0, top := 0, peak := 0 } (fun _ => none) cell false := by
  have hlt := hp.held_lt ht ⟨cell, size, hl, rfl⟩
  obtain ⟨hd, h, hh, hf⟩ := hp.live_header hl
  exact ⟨hd, Nat.lt_of_lt_of_le hlt hp.cursor_le,
    ⟨h, (header_of_region rfl cell).trans hh, hf⟩, nofun,
    fun hlt => absurd hlt (Nat.not_lt_zero _)⟩

/-- A call after which a cell is not held any more has flagged its header, or dropped all cells. -/
theorem withdrawn_of_run (hp : p.Chained leases cells) (ht : p.Trim leases)
    (hl : leases cell = some ⟨size, false⟩) (hrun : c.run p = .ok reply q)
    (hn : ∀ n, leases.after c reply cell ≠ some ⟨n, false⟩) :
    q.Withdrawn (leases.after c reply) cell (c ≠ .reset) := by
  have hlt := hp.held_lt ht ⟨cell, size, hl, rfl⟩
  have hkept (n : Nat) : leases.acquire p.cursor n cell = some ⟨size, false⟩ := by
    rw [Leases.acquire_of_ne leases n (by omega), hl]
  have he := hp.ends hrun
  generalize leases.after c reply = leases' at he hn ⊢
  cases he with
  | declined => exact absurd hl (hn size)
  | placed => exact absurd (hkept _) (hn size)
  | emptied => exact hp.withdrawn_of_reset ht hl
  | released address hc _ hfree =>
    obtain rfl | hne := eq_or_ne (cell + 8) address
    · have hreset : c ≠ .reset := by
        rintro rfl
        cases hc
      rw [decide_eq_true hreset]
      exact hp.withdrawn_of_free ht hl hfree
    · exact absurd ((Leases.release_of_ne leases hne).trans hl) (hn size)
  | moved address hf haddr hfree =>
    have hy := hp.yields_copy hf haddr none
    obtain ⟨cells', hq⟩ := hy.chained
    obtain rfl | hne := eq_or_ne (cell + 8) address
    · exact hq.withdrawn_of_free (hy.trim ht) (hkept _) hfree
    · exact absurd ((Leases.release_of_ne _ hne).trans (hkept _)) (hn size)

end Chained

theorem Retired.withdrawn (h : Retired host request cell flagged p leases) :
    p.Withdrawn leases cell flagged := by
  induction h with
  | released c h hl hrun hn =>
    obtain ⟨cells, hp⟩ := h.chained
    exact hp.withdrawn_of_run h.trim hl hrun hn
  | returned c h hrun ha ih =>
    obtain ⟨cells, hp⟩ := h.reachable.chained
    exact ih.of_run hp hrun ha
  | faulted c h hrun ha ih =>
    obtain ⟨cells, hp⟩ := h.reachable.chained
    exact ih.of_error hp hrun ha
  | stored v h hl ho ho' ih =>
    obtain ⟨cells, hp⟩ := h.reachable.chained
    exact ih.stored hp hl ho ho' v

/-! ### Releasing an address again -/

theorem Retired.refuses_release (h : Retired host request cell flagged p leases) : ∃ cause,
    cause = (if cell + 8 < p.cursor then Fault.doubleFree cell else .notLiveCell) ∧
    free (cell + 8) p = .error cause p ∧
    ∀ hint, (Allocator.dealloc (cell + 8) hint : Op Linear Unit) p = .error cause p := by
  obtain ⟨cells, hp⟩ := h.reachable.chained
  have hfree := h.withdrawn.free_eq hp
  exact ⟨_, rfl, hfree, fun _ => hfree⟩

/-- Of two cells the lower one was released, which leaves it flagged below the cursor. A cell that is
alone is gone with its release: the cursor is back at its header. -/
theorem refuses_release_flagged_or_gone :
    (∃ p leases, Retired ⟨fun _ => true⟩ 64 0 true p leases ∧ p.cursor = 32 ∧
      free 8 p = .error (.doubleFree 0) p) ∧
    ∃ p leases, Retired ⟨fun _ => true⟩ 64 0 true p leases ∧ p.cursor = 0 ∧
      free 8 p = .error .notLiveCell p := by
  have h₀ : Reachable ⟨fun _ => true⟩ 64 _ _ := .created rfl
  have h₁ := h₀.returned (.alloc 8) rfl
  have h₂ := h₁.returned (.alloc 8) rfl
  constructor
  · have h₃ : Retired _ _ 0 _ _ _ :=
      .released (.free 8) h₂ (show _ = some (Lease.mk 8 false) from rfl) rfl nofun
    obtain ⟨cause, rfl, hf, -⟩ := h₃.refuses_release
    exact ⟨_, _, h₃, rfl, hf⟩
  · have h₃ : Retired _ _ 0 _ _ _ :=
      .released (.free 8) h₁ (show _ = some (Lease.mk 8 false) from rfl) rfl nofun
    obtain ⟨cause, rfl, hf, -⟩ := h₃.refuses_release
    exact ⟨_, _, h₃, rfl, hf⟩

/-! ### Resizes -/

theorem Chained.free_ok_iff (hp : p.Chained leases cells) (hd : 8 ∣ cell) :
    (∃ q, free (cell + 8) p = .ok () q) ↔
      cell + 8 < p.cursor ∧ ∃ h, p.header cell = .ok (some h) ∧ h.freed = false := by
  constructor
  · rintro ⟨q, hq⟩
    obtain ⟨cause, -, he⟩ | ⟨c, h, he, -, hlt, hh, hf⟩ := hp.free_refuses_or (cell + 8)
    · rw [hq] at he
      cases he
    · obtain rfl := Nat.add_right_cancel he
      exact ⟨hlt, h, hh, hf⟩
  · rintro ⟨hlt, h, hh, hf⟩
    obtain ⟨q, -, hq, -⟩ := hp.free_flag hd hlt hh hf
    exact ⟨q, hq⟩

namespace Withdrawn

/-- The new cell of a move leaves the header as it is, unless the cell begins right there. -/
theorem header_withCopy (h : p.Withdrawn leases cell flagged) (hp : p.Chained leases cells)
    (hf : p.Fits n) (hne : p.cursor ≠ cell) :
    (p.withCopy (cell + 8) n).header cell = p.header cell := by
  have hd := h.dvd
  have hdc := hp.dvd_cursor
  apply header_congr (p.size_withCopy _ n) hp.size_lt (Nat.le_of_lt h.inside)
  intro i hi hi'
  -- A cell from the cursor on has no bytes below it to copy.
  have hmin := Nat.min_le_right n (p.cursor - (cell + 8))
  rw [hp.byte_withCopy hf h.inside (by omega), region_withCell]
  exact byte_withHeader p _ (by omega)

theorem free_withCopy_iff (h : p.Withdrawn leases cell flagged) (hp : p.Chained leases cells)
    (hf : p.Fits n) :
    (∃ q, free (cell + 8) (p.withCopy (cell + 8) n) = .ok () q) ↔
      p.cursor = cell ∨ flagged = false ∧ cell + 8 < p.cursor + cellExtent n := by
  obtain ⟨cells', hq⟩ := (hp.yields_copy hf h.inside none).chained
  rw [hq.free_ok_iff h.dvd, cursor_withCopy]
  obtain rfl | hne := eq_or_ne p.cursor cell
  · have hx := cellExtent_ge n
    have hn := hf.1
    obtain ⟨-, g, hg, hgf⟩ := hq.live_header (leases.acquire_self p.cursor n)
    exact iff_of_true ⟨by omega, g, hg, hgf⟩ (.inl rfl)
  · obtain ⟨g, hg, rfl⟩ := h.header
    rw [h.header_withCopy hp hf hne, hg]
    constructor
    · rintro ⟨hlt, g', he, hgf⟩
      cases he
      exact .inr ⟨hgf, hlt⟩
    · rintro (he | ⟨hgf, hlt⟩)
      · exact absurd he hne
      · exact ⟨hlt, g, rfl, hgf⟩

end Withdrawn

theorem Retired.realloc_rejects_iff (h : Retired host request cell flagged p leases) (hn : n ≠ 0) :
    (∀ a q, realloc (some (cell + 8)) n p ≠ .ok (some a) q) ↔
      (p.Fits n → p.cursor ≠ cell ∧ (flagged = false → p.cursor + cellExtent n ≤ cell + 8)) := by
  obtain ⟨cells, hp⟩ := h.reachable.chained
  have hw := h.withdrawn
  have hr : realloc (some (cell + 8)) n = move (cell + 8) n := if_neg hn
  rw [hr]
  by_cases hf : p.Fits n
  · rw [hp.move_eq hw.inside hf]
    have hfree := hw.free_withCopy_iff hp hf
    constructor
    · intro hnone _
      have hnot : ¬ ∃ q, free (cell + 8) (p.withCopy (cell + 8) n) = .ok () q := by
        rintro ⟨q, hq⟩
        exact hnone (p.cursor + 8) q (Op.bind_ok _ hq)
      rw [hfree, not_or] at hnot
      exact ⟨hnot.1, fun hfl => Nat.le_of_not_lt fun hlt => hnot.2 ⟨hfl, hlt⟩⟩
    · intro hfar a q hq
      obtain ⟨hne, hle⟩ := hfar hf
      obtain ⟨_, m, hm, -⟩ := Op.bind_eq_ok.1 hq
      obtain he | ⟨hfl, hlt⟩ := hfree.1 ⟨m, hm⟩
      · exact hne he
      · exact Nat.not_lt_of_ge (hle hfl) hlt
  · rw [hp.move_none hw.inside hf]
    exact iff_of_true nofun fun h => absurd h hf

/-- The lower one of two cells was released, and stays flagged below the cursor. -/
theorem realloc_rejects_flagged : ∃ p leases, Retired ⟨fun _ => true⟩ 64 0 true p leases ∧
    p.cursor = 32 ∧ ∀ a q, realloc (some 8) 8 p ≠ .ok (some a) q := by
  have h₀ : Reachable ⟨fun _ => true⟩ 64 _ _ := .created rfl
  have h₁ := h₀.returned (.alloc 8) rfl
  have h₂ := h₁.returned (.alloc 8) rfl
  have h₃ : Retired _ _ 0 _ _ _ :=
    .released (.free 8) h₂ (show _ = some (Lease.mk 8 false) from rfl) rfl nofun
  have hc : (32 : Nat) ≠ 0 := by decide
  exact ⟨_, _, h₃, rfl, (h₃.realloc_rejects_iff (n := 8) (by decide)).2 fun _ => ⟨hc, nofun⟩⟩

/-- The only cell was released, and the cursor is back at its header. A resize of its address puts
the new cell in its place, and then takes that for the old one: the address that it answers is not
held. -/
theorem realloc_answers_released : ∃ p leases q, Retired ⟨fun _ => true⟩ 64 0 true p leases ∧
    realloc (some 8) 8 p = .ok (some 8) q ∧ q.cursor = 0 ∧
    ¬ (leases.after (.realloc (some 8) 8) (.address (some 8))).Held 8 := by
  have hrun : ∃ p₀ q, create ⟨fun _ => true⟩ 64 = .ok p₀ ∧
      (do
        let a ← (Call.alloc 8).run
        let b ← (Call.free 8).run
        let c ← realloc (some 8) 8
        return (a, b, c, (← get).cursor) : Op Linear (Reply × Reply × Option Address × Nat)) p₀ =
      .ok (.address (some 8), .done, some 8, 0) q := Op.exists_of_answerFrom (by decide +kernel)
  obtain ⟨p₀, q, hp₀, hq⟩ := hrun
  simp only [Op.bind_eq_ok, Op.pure_apply, EStateM.Result.ok.injEq, Prod.mk.injEq] at hq
  obtain ⟨_, p, hp, _, r, hr, _, q, hq, _, _, ⟨⟩, ⟨rfl, rfl, rfl, hc⟩, rfl⟩ := hq
  have h₁ := (Reachable.created hp₀).returned _ hp
  have h₂ : Retired _ _ 0 _ _ _ :=
    .released (.free 8) h₁ (show _ = some (Lease.mk 8 false) from rfl) hr nofun
  refine ⟨r, _, q, h₂, hq, hc, ?_⟩
  rintro ⟨cell, size, hl, he⟩
  have he : 8 = cell + 8 := he
  obtain rfl : cell = 0 := by omega
  cases hl

end FixedPool.Linear
