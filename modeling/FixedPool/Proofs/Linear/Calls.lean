import FixedPool.Proofs.Linear.Chain
import Mathlib.Logic.Function.Basic

/-!
What each call on a linear pool does to its chain of cells: the invariant of the chain, and that it
is kept by every step, whatever address the step is given.
-/

namespace FixedPool.Linear

namespace Leases

/-- A cell was put at an offset. -/
def acquire (leases : Leases) (cell size : Nat) : Leases :=
  Function.update leases cell (some ⟨size, false⟩)

/-- The cell at an address was released, if there was one. -/
def release (leases : Leases) (address : Address) : Leases := fun cell =>
  if cell + 8 = address then (leases cell).map ({ · with released := true })
  else leases cell

end Leases

/-- The cells form a chain, which holds every cell that was leased and not released. -/
structure Chained (p : Linear) (leases : Leases) (cells : List Nat) : Prop where
  size_le : p.region.size ≤ 2 ^ 31
  cursor_le : p.cursor ≤ p.region.size
  chain : p.Chain leases p.top p.cursor cells
  mem_of_leased : ∀ cell size, leases cell = some ⟨size, false⟩ → cell ∈ cells

/-- What holds of a pool whatever the bytes of its region are. -/
structure Bounded (p : Linear) : Prop where
  size_le : p.region.size ≤ 2 ^ 31
  cursor_le : p.cursor ≤ p.region.size
  top_lt : p.top < 2 ^ 31

variable {p q : Linear} {leases leases' : Leases} {cell size offset address : Nat}
  {cells : List Nat} {h : Header}

theorem Bounded.size_lt (hp : p.Bounded) : p.region.size < Word.bound :=
  Nat.lt_of_le_of_lt hp.size_le (by decide)

namespace Chained

theorem size_lt (hp : p.Chained leases cells) : p.region.size < Word.bound :=
  Nat.lt_of_le_of_lt hp.size_le (by decide)

theorem header_end_le (hp : p.Chained leases cells) (hm : cell ∈ cells) :
    cell + 8 ≤ p.region.size :=
  Nat.le_trans (hp.chain.lt_of_mem hm) hp.cursor_le

theorem dvd_cursor (hp : p.Chained leases cells) : 8 ∣ p.cursor := hp.chain.dvd.1

theorem top_eq (hp : p.Chained leases cells) (hc : 0 < p.cursor) :
    p.top ∈ cells := by
  have hch := hp.chain
  cases cells with
  | nil =>
    obtain ⟨-, hz⟩ := hch
    omega
  | cons first cells =>
    obtain ⟨he, -⟩ := hch
    rw [he]
    exact List.mem_cons_self

theorem top_lt (hp : p.Chained leases cells) : p.top < 2 ^ 31 := by
  obtain hc | hc := Nat.eq_zero_or_pos p.cursor
  · have hch := hp.chain
    cases cells with
    | nil =>
      obtain ⟨hz, -⟩ := hch
      omega
    | cons first cells =>
      have := hp.chain.lt_of_mem List.mem_cons_self
      omega
  · have := hp.header_end_le (hp.top_eq hc)
    have := hp.size_le
    omega

theorem bounded (hp : p.Chained leases cells) : p.Bounded := ⟨hp.size_le, hp.cursor_le, hp.top_lt⟩

theorem of_region (hp : p.Chained leases cells) {r : Region} (hs : r.size = p.region.size)
    (hb : ∀ cell ∈ cells, ∀ i, cell ≤ i → i < cell + 8 → r.byte i = p.region.byte i) :
    Chained { p with region := r } leases cells where
  size_le := by rw [hs]; exact hp.size_le
  cursor_le := by rw [hs]; exact hp.cursor_le
  chain := hp.chain.congr
    (fun cell hm => header_congr hs hp.size_lt (hp.header_end_le hm) (hb cell hm))
    (fun _ _ => rfl)
  mem_of_leased := hp.mem_of_leased

theorem end_le (hp : p.Chained leases cells) (hl : leases cell = some ⟨size, false⟩) :
    cell + cellExtent size ≤ p.cursor :=
  hp.chain.end_le (hp.mem_of_leased cell size hl) hl

/-- A cell that was not released has a header that is not flagged. -/
theorem live_header (hp : p.Chained leases cells) (hl : leases cell = some ⟨size, false⟩) :
    8 ∣ cell ∧ ∃ h, p.header cell = .ok (some h) ∧ h.freed = false := by
  have hm := hp.mem_of_leased cell size hl
  obtain ⟨h, n, hh, hl', -⟩ := hp.chain.lease_of_mem hm
  rw [hl, Option.some.injEq, Lease.mk.injEq] at hl'
  exact ⟨hp.chain.dvd.2 cell hm, h, hh, hl'.2.symm⟩

theorem payload_apart (hp : p.Chained leases cells) (hl : leases cell = some ⟨size, false⟩)
    (ho : cell + 8 ≤ offset) (ho' : offset < cell + cellExtent size) {c : Nat} (hc : c ∈ cells) :
    offset < c ∨ c + 8 ≤ offset := by
  by_cases he : c = cell
  · omega
  · obtain ⟨h, n, -, hlc, -⟩ := hp.chain.lease_of_mem hc
    have hm := hp.mem_of_leased cell size hl
    have := hp.chain.apart hm hc (Ne.symm he) hl hlc
    have := cellExtent_ge n
    omega

/-- Callers may write behind the headers of cells that were not released. -/
theorem store (hp : p.Chained leases cells) (hl : leases cell = some ⟨size, false⟩)
    (ho : cell + 8 ≤ offset) (ho' : offset < cell + cellExtent size) (v : UInt8) :
    Chained { p with region := p.region.setByte offset v } leases cells := by
  apply hp.of_region (Region.size_setByte ..)
  intro c hc i hi hi'
  have := hp.payload_apart hl ho ho' hc
  exact Region.byte_setByte_ne _ _ (by omega)

end Chained

/-! ### Allocation -/

theorem extentOf_eq (hn : size + 15 < Word.bound) : extentOf size = some (cellExtent size) := by
  have ha : (alignment : Nat) - 1 = 2 ^ 3 - 1 := rfl
  have hs : size + headerSize + alignment - 1 = size + 15 := rfl
  simp only [extentOf, hs, hn, ↓reduceIte, ha]
  have h₈ : 2 ^ 3 = 8 := rfl
  rw [Word.and_complement hn (by decide), cellExtent, h₈]

/-- The pool with a new cell on top. -/
@[irreducible] def withCell (p : Linear) (size : Nat) : Linear :=
  { region := (p.withHeader p.cursor ⟨.ofNat p.top, false⟩).region
    cursor := p.cursor + cellExtent size
    top := p.cursor
    peak := max p.peak (p.cursor + cellExtent size) }

theorem region_withCell (p : Linear) (size : Nat) :
    (p.withCell size).region = (p.withHeader p.cursor ⟨.ofNat p.top, false⟩).region := by
  unfold withCell
  dsimp only

@[simp] theorem cursor_withCell (p : Linear) (size : Nat) :
    (p.withCell size).cursor = p.cursor + cellExtent size := by
  unfold withCell
  dsimp only

@[simp] theorem top_withCell (p : Linear) (size : Nat) : (p.withCell size).top = p.cursor := by
  unfold withCell
  dsimp only

@[simp] theorem peak_withCell (p : Linear) (size : Nat) :
    (p.withCell size).peak = max p.peak (p.cursor + cellExtent size) := by
  unfold withCell
  dsimp only

@[simp] theorem size_withCell (p : Linear) (size : Nat) :
    (p.withCell size).region.size = p.region.size := by
  rw [region_withCell, size_withHeader]

/-- There is room for a cell of `size` bytes on top of the others. -/
def Fits (p : Linear) (size : Nat) : Prop :=
  size ≠ 0 ∧ p.cursor + cellExtent size ≤ p.region.size

instance (p : Linear) (size : Nat) : Decidable (p.Fits size) := inferInstanceAs (Decidable (_ ∧ _))

theorem Bounded.alloc_eq (hp : p.Bounded) (hf : p.Fits size) :
    alloc size p = .ok (some (p.cursor + 8)) (p.withCell size) := by
  obtain ⟨hz, hle⟩ := hf
  have hb := hp.size_lt
  have hge := cellExtent_ge size
  have hx : extentOf size = some (cellExtent size) := extentOf_eq (by
    have := hp.size_le
    have := Word.bound_eq
    omega)
  have hr : Word.sub p.region.size p.cursor = .ok (p.region.size - p.cursor) :=
    Word.sub_ok hp.cursor_le
  have hlt : ¬ p.region.size - p.cursor < cellExtent size := by omega
  have hw := storeHeader_eq hb (by omega : p.cursor + 8 ≤ p.region.size) ⟨.ofNat p.top, false⟩
  have hs := size_withHeader p p.cursor ⟨.ofNat p.top, false⟩
  have hc : Word.add p.cursor (cellExtent size) = .ok (p.cursor + cellExtent size) :=
    Word.add_ok (by omega)
  have ha : Word.add p.cursor headerSize = .ok (p.cursor + 8) := Word.add_ok (by
    have : headerSize = 8 := rfl
    omega)
  have hg : (p.withHeader p.cursor ⟨.ofNat p.top, false⟩).region.addressAt (p.cursor + 8) =
      .ok (p.cursor + 8) := Region.addressAt_ok (by omega)
  rw [alloc, if_neg hz, hx]
  simp only [Op.bind_apply, Op.get_apply, Op.lift_apply, Op.modify_apply, Op.pure_apply, hr, hlt,
    ↓reduceIte, hw, hc, ha, hg]
  unfold Linear.withCell
  rw [peak_withHeader]

theorem Bounded.alloc_none (hp : p.Bounded) (hf : ¬ p.Fits size) :
    alloc size p = .ok none p := by
  have hr : Word.sub p.region.size p.cursor = .ok (p.region.size - p.cursor) :=
    Word.sub_ok hp.cursor_le
  by_cases hz : size = 0
  · rw [alloc, if_pos hz]
    rfl
  · rw [alloc, if_neg hz]
    by_cases hn : size + 15 < Word.bound
    · have hlt : p.region.size - p.cursor < cellExtent size := by
        have := hp.cursor_le
        unfold Fits at hf
        omega
      rw [extentOf_eq hn]
      simp only [Op.bind_apply, Op.get_apply, Op.lift_apply, Op.pure_apply, hr, hlt, ↓reduceIte]
    · have hx : extentOf size = none := if_neg hn
      rw [hx]
      rfl

theorem Chained.alloc_eq (hp : p.Chained leases cells) (hf : p.Fits size) :
    alloc size p = .ok (some (p.cursor + 8)) (p.withCell size) := hp.bounded.alloc_eq hf

theorem Chained.alloc_none (hp : p.Chained leases cells) (hf : ¬ p.Fits size) :
    alloc size p = .ok none p := hp.bounded.alloc_none hf

theorem Chained.withCell (hp : p.Chained leases cells) (hf : p.Fits size) :
    (p.withCell size).Chained (leases.acquire p.cursor size) (p.cursor :: cells) := by
  obtain ⟨hz, hle⟩ := hf
  have hb := hp.size_lt
  have hge := cellExtent_ge size
  have ht : (UInt32.ofNat p.top).toNat = p.top := by
    have := hp.top_lt
    rw [UInt32.toNat_ofNat', Nat.mod_eq_of_lt (by omega)]
  have hr := p.region_withCell size
  have hs := p.size_withCell size
  have hh : (p.withCell size).header p.cursor = .ok (some ⟨.ofNat p.top, false⟩) := by
    rw [header_of_region hr]
    exact header_withHeader hb (by omega) (by rw [ht]; exact hp.top_lt)
  refine ⟨hs.trans_le hp.size_le, ?_, ?_, ?_⟩
  · rw [cursor_withCell, hs]
    exact hle
  · rw [cursor_withCell, top_withCell]
    refine ⟨rfl, _, size, hh, Function.update_self .., rfl, ?_⟩
    rw [ht]
    apply hp.chain.congr
    · intro cell hm
      have hlt := hp.chain.lt_of_mem hm
      apply header_congr hs hb (hp.header_end_le hm)
      intro i _ hi
      rw [hr]
      exact byte_withHeader p _ (by omega)
    · intro cell hm
      have hlt := hp.chain.lt_of_mem hm
      exact Function.update_of_ne (by omega) ..
  · intro cell n hl
    by_cases hc : cell = p.cursor
    · rw [hc]
      exact List.mem_cons_self
    · rw [Leases.acquire, Function.update_of_ne hc] at hl
      exact List.mem_cons_of_mem _ (hp.mem_of_leased cell n hl)

/-! ### Release -/

theorem cellAt_eq (hc : p.cursor ≤ p.region.size) (address : Nat) :
    p.cellAt address = .ok
      (if address < p.cursor ∧ 8 ∣ address ∧ 8 ≤ address then some (address - 8) else none) := by
  have hm : Word.isMultiple address alignment = .ok (decide (8 ∣ address)) :=
    Word.isMultiple_two_pow address 3
  have hz : headerSize = 8 := rfl
  by_cases ha : address < p.region.size
  · have hk : p.region.contains address = true := decide_eq_true ha
    simp only [cellAt, hk, Region.resolve_ok ha, hm, Checked.ok_bind, Bool.not_true,
      Bool.false_eq_true, ↓reduceIte, hz]
    by_cases hlt : address < p.cursor
    · by_cases hd : 8 ∣ address
      · simp only [hlt, Nat.not_le_of_gt hlt, hd, decide_true, Bool.not_true, Bool.false_eq_true,
          ↓reduceIte, true_and]
        rfl
      · simp only [hlt, Nat.not_le_of_gt hlt, hd, decide_false, Bool.not_false, ↓reduceIte,
          false_and, and_false]
        rfl
    · simp only [hlt, Nat.le_of_not_gt hlt, ↓reduceIte, false_and]
      rfl
  · have hk : p.region.contains address = false := decide_eq_false ha
    have hlt : ¬ address < p.cursor := by omega
    simp only [cellAt, hk, Bool.not_false, ↓reduceIte, hlt, false_and]
    rfl

theorem retreatWithin_zero (steps : Nat) (h : Header) (p : Linear) :
    retreatWithin (steps + 1) 0 h p = .ok () { p with cursor := 0, top := 0 } := by
  simp only [retreatWithin, Op.bind_apply, Op.modify_apply, ↓reduceIte]

theorem retreatWithin_succ {steps : Nat} (hc : cell ≠ 0) :
    retreatWithin (steps + 1) cell h p =
      match p.header h.below.toNat with
      | .ok (some next) =>
        (if next.freed then retreatWithin steps h.below.toNat next else pure () : Op Linear Unit)
          { p with cursor := cell, top := h.below.toNat }
      | .ok none =>
        .error (.corruptHeader h.below.toNat) { p with cursor := cell, top := h.below.toNat }
      | .error cause => .error cause { p with cursor := cell, top := h.below.toNat } := by
  let q : Linear := { p with cursor := cell, top := h.below.toNat }
  have hq : q.header h.below.toNat = p.header h.below.toNat := header_of_region rfl _
  simp only [retreatWithin, Op.bind_apply, Op.modify_apply, Op.get_apply, Op.lift_apply, hc,
    ↓reduceIte]
  rw [hq]
  cases p.header h.below.toNat with
  | error cause => rfl
  | ok found => cases found <;> rfl

/-- Rolling back from a flagged cell ends on top of the chain's highest cell that is not flagged,
and drops no other. -/
theorem retreatWithin_eq {steps stop : Nat} (hs : cells.length < steps)
    (hc : p.Chain leases cell stop (cell :: cells)) (hh : p.header cell = .ok (some h))
    (hf : h.freed = true) (hl : ∀ c n, leases c = some ⟨n, false⟩ → c ∈ cell :: cells) :
    ∃ q cells', retreatWithin steps cell h p = .ok () q ∧ q.region = p.region ∧
      q.peak = p.peak ∧ q.cursor ≤ cell ∧ q.Chain leases q.top q.cursor cells' ∧
      ∀ c n, leases c = some ⟨n, false⟩ → c ∈ cells' := by
  induction cells generalizing cell stop h p steps with
  | nil =>
    obtain ⟨-, h', size, hh', hlc, -, -, rfl⟩ := hc
    obtain ⟨steps, rfl⟩ := Nat.exists_eq_succ_of_ne_zero (Nat.ne_of_gt hs)
    refine ⟨{ p with cursor := 0, top := 0 }, [], retreatWithin_zero steps h p, rfl, rfl,
      Nat.le_refl 0, ⟨rfl, rfl⟩, ?_⟩
    intro c n hcn
    obtain rfl := List.mem_singleton.1 (hl c n hcn)
    rw [hh, Except.ok.injEq, Option.some.injEq] at hh'
    rw [hlc, ← hh', hf] at hcn
    cases hcn
  | cons next cells ih =>
    obtain ⟨-, h', size, hh', hlc, -, hnext⟩ := hc
    rw [hh, Except.ok.injEq, Option.some.injEq] at hh'
    subst hh'
    obtain ⟨steps, rfl⟩ := Nat.exists_eq_succ_of_ne_zero (Nat.ne_of_gt (Nat.zero_lt_of_lt hs))
    have hpos : cell ≠ 0 := by
      have := hnext.lt_of_mem List.mem_cons_self
      omega
    have hdrop (c n : Nat) (hcn : leases c = some ⟨n, false⟩) : c ∈ next :: cells := by
      obtain rfl | hm := List.mem_cons.1 (hl c n hcn)
      · rw [hlc, hf] at hcn
        cases hcn
      · exact hm
    obtain ⟨hb, g, -, hg, -⟩ := id hnext
    rw [hb] at hnext
    let q : Linear := { p with cursor := cell, top := next }
    have hq : q.region = p.region := rfl
    have hgq : q.header next = .ok (some g) := by rw [header_of_region hq, hg]
    have hstep : retreatWithin (steps + 1) cell h p =
        (if g.freed then retreatWithin steps next g else pure ()) q := by
      rw [retreatWithin_succ hpos, hb, hg]
    rw [hstep]
    by_cases hgf : g.freed = true
    · rw [if_pos hgf]
      obtain ⟨q', cells', he, hr, hk, hle, hch, hl'⟩ :=
        ih (Nat.lt_of_succ_lt_succ hs) (hnext.of_region hq) hgq hgf hdrop
      have hlt := hnext.lt_of_mem List.mem_cons_self
      exact ⟨q', cells', he, hr, hk, by omega, hch, hl'⟩
    · rw [if_neg hgf]
      exact ⟨q, next :: cells, rfl, rfl, rfl, Nat.le_refl _, hnext.of_region hq, hdrop⟩

theorem Leases.release_eq_live {c n : Nat} (h : leases.release address c = some ⟨n, false⟩) :
    leases c = some ⟨n, false⟩ := by
  unfold release at h
  split at h
  · obtain ⟨l, -, hl⟩ := Option.map_eq_some_iff.1 h
    cases hl
  · exact h

/-- Flagging a header releases its cell, if a cell of the chain begins there. -/
theorem Chain.release {top stop c : Nat} (hc : p.Chain leases top stop cells)
    (hh : p.header c = .ok (some h)) (hq : q.header c = .ok (some { h with freed := true }))
    (ho : ∀ cell ∈ cells, cell ≠ c → q.header cell = p.header cell) :
    q.Chain (leases.release (c + 8)) top stop cells := by
  induction cells generalizing top stop with
  | nil => exact hc
  | cons first cells ih =>
    obtain ⟨rfl, g, size, hg, hl, hs, hc⟩ := hc
    have ih := ih hc fun cell hm => ho cell (List.mem_cons_of_mem _ hm)
    by_cases he : top = c
    · subst he
      rw [hh, Except.ok.injEq, Option.some.injEq] at hg
      subst hg
      refine ⟨rfl, _, size, hq, ?_, hs, ih⟩
      rw [Leases.release, if_pos rfl, hl]
      rfl
    · refine ⟨rfl, g, size, ?_, ?_, hs, ih⟩
      · rw [ho top List.mem_cons_self he, hg]
      · have hn : ¬ top + 8 = c + 8 := by omega
        rw [Leases.release, if_neg hn, hl]

theorem Chained.flag {c : Nat} (hp : p.Chained leases cells) (hd : 8 ∣ c)
    (hc : c + 8 ≤ p.region.size) (hh : p.header c = .ok (some h)) :
    (p.withHeader c { h with freed := true }).Chained (leases.release (c + 8)) cells := by
  have hb := hp.size_lt
  have hs := size_withHeader p c { h with freed := true }
  refine ⟨hs.trans_le hp.size_le, ?_, ?_, ?_⟩
  · rw [cursor_withHeader, hs]
    exact hp.cursor_le
  · rw [cursor_withHeader, top_withHeader]
    have hbl : h.below.toNat < 2 ^ 31 := below_lt_of_header hb hc hh
    apply hp.chain.release hh (header_withHeader hb hc hbl)
    intro cell hm hne
    have hdc := hp.chain.dvd.2 cell hm
    apply header_congr hs hb (hp.header_end_le hm)
    -- Both headers begin at multiples of 8, so that they share no byte.
    intro i hi hi'
    exact byte_withHeader p _ (by omega)
  · intro cell n hl
    exact hp.mem_of_leased cell n (Leases.release_eq_live hl)

theorem Chained.retreat_eq (hp : p.Chained leases cells) (ht : cell = p.top) (hc : 0 < p.cursor)
    (hh : p.header cell = .ok (some h)) (hf : h.freed = true) :
    ∃ q cells', retreat cell h p = .ok () q ∧ q.region = p.region ∧ q.peak = p.peak ∧
      q.cursor ≤ cell ∧ q.Chained leases cells' := by
  have hch := hp.chain
  cases cells with
  | nil =>
    obtain ⟨-, hz⟩ := hch
    omega
  | cons first cells =>
    obtain rfl : p.top = first := hch.1
    subst ht
    have hle := hp.cursor_le
    have hlen : cells.length < p.region.size + 1 := by
      have := hch.length_le
      rw [List.length_cons] at this
      omega
    obtain ⟨q, cells', hq, hr, hk, hqc, hqch, hl⟩ :=
      retreatWithin_eq hlen hch hh hf hp.mem_of_leased
    refine ⟨q, cells', hq, hr, hk, hqc, ?_, ?_, hqch, hl⟩
    · rw [hr]
      exact hp.size_le
    · have := hch.lt_of_mem List.mem_cons_self
      rw [hr]
      omega

/-- The faults that report an address at which no live cell begins. -/
def IsRefusal (cause : Fault) : Prop :=
  cause = .foreignAddress ∨ cause = .notLiveCell ∨ (∃ cell, cause = .badChecksum cell) ∨
    ∃ cell, cause = .doubleFree cell

/-- Releasing the address behind a header flags it, and rolls back if it is that of the top cell. -/
theorem Chained.free_eq {c : Nat} (hp : p.Chained leases cells) (hd : 8 ∣ c)
    (hc : c + 8 < p.cursor) (hh : p.header c = .ok (some h)) (hf : h.freed = false) :
    free (c + 8) p =
      (if c = p.top then retreat c { h with freed := true } else pure ())
        (p.withHeader c { h with freed := true }) := by
  have hle : c + 8 ≤ p.region.size := Nat.le_trans (Nat.le_of_lt hc) hp.cursor_le
  have hstore := storeHeader_eq hp.size_lt hle { h with freed := true }
  have hat : p.cellAt (c + 8) = .ok (some c) := by
    rw [cellAt_eq hp.cursor_le, if_pos ⟨hc, by omega, Nat.le_add_left 8 c⟩, Nat.add_sub_cancel]
  simp only [Linear.free, Op.bind_apply, Op.get_apply, Op.lift_apply, hat, hh, hf,
    Bool.false_eq_true, ↓reduceIte, hstore, top_withHeader]

theorem Chained.free_flag {c : Nat} (hp : p.Chained leases cells) (hd : 8 ∣ c)
    (hc : c + 8 < p.cursor) (hh : p.header c = .ok (some h)) (hf : h.freed = false) :
    ∃ q cells', free (c + 8) p = .ok () q ∧ q.Chained (leases.release (c + 8)) cells' ∧
      q.cursor ≤ p.cursor ∧ q.peak = p.peak ∧ q.region.size = p.region.size ∧
      ∀ i, i + 8 < c + 8 ∨ c + 8 ≤ i → q.region.byte i = p.region.byte i := by
  have hb := hp.size_lt
  have hle : c + 8 ≤ p.region.size := Nat.le_trans (Nat.le_of_lt hc) hp.cursor_le
  have hflag := hp.flag hd hle hh
  have hstep := hp.free_eq hd hc hh hf
  by_cases htop : c = p.top
  · rw [if_pos htop] at hstep
    have hbl : h.below.toNat < 2 ^ 31 := below_lt_of_header hb hle hh
    obtain ⟨q, cells', hq, hr, hk, hqc, hch⟩ := hflag.retreat_eq
      (by rw [top_withHeader, htop]) (by rw [cursor_withHeader]; omega)
      (header_withHeader hb hle hbl) rfl
    refine ⟨q, cells', hstep.trans hq, hch, by omega, ?_, ?_, ?_⟩
    · rw [hk, peak_withHeader]
    · rw [hr, size_withHeader]
    · intro i hi
      rw [hr]
      exact byte_withHeader p _ (by omega)
  · rw [if_neg htop] at hstep
    refine ⟨_, cells, hstep, hflag, ?_, ?_, ?_, ?_⟩
    · rw [cursor_withHeader]
    · rw [peak_withHeader]
    · rw [size_withHeader]
    · intro i hi
      exact byte_withHeader p _ (by omega)

/-- A release refuses its address and changes nothing, unless eight bytes that look like the header
of a cell stand in front of it. -/
theorem Chained.free_refuses_or (hp : p.Chained leases cells) (address : Nat) :
    (∃ cause, IsRefusal cause ∧ free address p = .error cause p) ∨
    ∃ c h, address = c + 8 ∧ 8 ∣ c ∧ c + 8 < p.cursor ∧ p.header c = .ok (some h) ∧
      h.freed = false := by
  have hb := hp.size_lt
  have hat := cellAt_eq hp.cursor_le address
  by_cases ha : address < p.cursor ∧ 8 ∣ address ∧ 8 ≤ address
  · obtain ⟨hlt, hd, hge⟩ := ha
    obtain ⟨cell, rfl⟩ : ∃ cell, address = cell + 8 := ⟨address - 8, by omega⟩
    have hdc : 8 ∣ cell := by omega
    have hc : cell + 8 ≤ p.region.size := by
      have := hp.cursor_le
      omega
    rw [if_pos ⟨hlt, hd, hge⟩, Nat.add_sub_cancel] at hat
    have hh := header_eq hb hc
    cases hdec : Header.decode (p.region.word cell) (p.region.word (cell + 4)) with
    | none =>
      rw [hdec] at hh
      refine .inl ⟨.badChecksum cell, .inr (.inr (.inl ⟨cell, rfl⟩)), ?_⟩
      simp only [Linear.free, Op.bind_apply, Op.get_apply, Op.lift_apply, Op.throw_apply, hat, hh]
    | some h =>
      rw [hdec] at hh
      cases hf : h.freed with
      | true =>
        refine .inl ⟨.doubleFree cell, .inr (.inr (.inr ⟨cell, rfl⟩)), ?_⟩
        simp only [Linear.free, Op.bind_apply, Op.get_apply, Op.lift_apply, Op.throw_apply, hat,
          hh, hf, ↓reduceIte]
      | false => exact .inr ⟨cell, h, rfl, hdc, hlt, hh, hf⟩
  · refine .inl ⟨.notLiveCell, .inr (.inl rfl), ?_⟩
    rw [if_neg ha] at hat
    simp only [Linear.free, Op.bind_apply, Op.get_apply, Op.lift_apply, Op.throw_apply, hat]

/-- A release either refuses its address and changes nothing, or releases a cell of the chain, or
flags eight bytes that look like a header in a payload. -/
theorem Chained.free_cases (hp : p.Chained leases cells) (address : Nat) :
    (∃ cause, IsRefusal cause ∧ free address p = .error cause p) ∨
    ∃ q cells', free address p = .ok () q ∧ q.Chained (leases.release address) cells' ∧
      q.cursor ≤ p.cursor ∧ q.peak = p.peak ∧ q.region.size = p.region.size ∧
      ∀ i, i + 8 < address ∨ address ≤ i → q.region.byte i = p.region.byte i := by
  obtain he | ⟨c, h, rfl, hd, hc, hh, hf⟩ := hp.free_refuses_or address
  · exact .inl he
  · exact .inr (hp.free_flag hd hc hh hf)

/-! ### Calls built from these -/

theorem Chained.withCell_fill (hp : p.Chained leases cells) (hf : p.Fits size) {r : Region}
    (hs : r.size = p.region.size)
    (hb : ∀ i, i < p.cursor + 8 → r.byte i = (p.withCell size).region.byte i) :
    Chained { p.withCell size with region := r } (leases.acquire p.cursor size)
      (p.cursor :: cells) := by
  apply (hp.withCell hf).of_region
  · rw [hs, size_withCell]
  · intro cell hm i _ hi
    apply hb
    obtain rfl | hm := List.mem_cons.1 hm
    · exact hi
    · have := hp.chain.lt_of_mem hm
      omega

/-- The pool with a new cell on top, of which the requested bytes are zero. -/
def withZeros (p : Linear) (size : Nat) : Linear :=
  { p.withCell size with region := (p.withCell size).region.clear (p.cursor + 8) size }

theorem region_withZeros (p : Linear) (size : Nat) :
    (p.withZeros size).region = (p.withCell size).region.clear (p.cursor + 8) size := by
  rw [withZeros]

@[simp] theorem size_withZeros (p : Linear) (size : Nat) :
    (p.withZeros size).region.size = p.region.size := by
  rw [region_withZeros, Region.size_clear, size_withCell]

theorem byte_withZeros (hf : p.Fits size) {i : Nat}
    (hi : i < p.cursor + 8 ∨ p.cursor + 8 + size ≤ i) :
    (p.withZeros size).region.byte i = (p.withCell size).region.byte i := by
  have hx := cellExtent_ge size
  have hle := hf.2
  have hs := p.size_withCell size
  rw [region_withZeros, Region.byte_clear (by omega), if_neg (by omega)]

@[simp] theorem cursor_withZeros (p : Linear) (size : Nat) :
    (p.withZeros size).cursor = p.cursor + cellExtent size := by
  unfold withZeros
  exact cursor_withCell p size

@[simp] theorem peak_withZeros (p : Linear) (size : Nat) :
    (p.withZeros size).peak = max p.peak (p.cursor + cellExtent size) := by
  unfold withZeros
  exact peak_withCell p size

/-- The pool with a new cell on top, into which the bytes from an address on were copied. -/
def withCopy (p : Linear) (address size : Nat) : Linear :=
  { p.withCell size with
    region := (p.withCell size).region.move address (min size (p.cursor - address))
      (p.cursor + 8) }

theorem region_withCopy (p : Linear) (address size : Nat) :
    (p.withCopy address size).region =
      (p.withCell size).region.move address (min size (p.cursor - address)) (p.cursor + 8) := by
  rw [withCopy]

@[simp] theorem size_withCopy (p : Linear) (address size : Nat) :
    (p.withCopy address size).region.size = p.region.size := by
  rw [region_withCopy, Region.size_move, size_withCell]

/-- The copy of a move lies behind the header of the new cell, and holds no more than was asked
for. -/
theorem Chained.byte_withCopy (hp : p.Chained leases cells) (hf : p.Fits size)
    (ha : address < p.region.size) {i : Nat}
    (hi : i < p.cursor + 8 ∨ p.cursor + 8 + min size (p.cursor - address) ≤ i) :
    (p.withCopy address size).region.byte i = (p.withCell size).region.byte i := by
  have hx := cellExtent_ge size
  have hle := hf.2
  have hc := hp.cursor_le
  have hs := p.size_withCell size
  have hmin := Nat.min_le_left size (p.cursor - address)
  rw [region_withCopy, Region.byte_move (by omega) (by omega), if_neg (by omega)]

@[simp] theorem cursor_withCopy (p : Linear) (address size : Nat) :
    (p.withCopy address size).cursor = p.cursor + cellExtent size := by
  unfold withCopy
  exact cursor_withCell p size

@[simp] theorem top_withCopy (p : Linear) (address size : Nat) :
    (p.withCopy address size).top = p.cursor := by
  unfold withCopy
  exact top_withCell p size

@[simp] theorem peak_withCopy (p : Linear) (address size : Nat) :
    (p.withCopy address size).peak = max p.peak (p.cursor + cellExtent size) := by
  unfold withCopy
  exact peak_withCell p size

theorem Bounded.move_eq (hp : p.Bounded) (ha : address < p.region.size)
    (hf : p.Fits size) :
    move address size p =
      (do free address; return some (p.cursor + 8) : Op Linear (Option Address))
        (p.withCopy address size) := by
  have hx := cellExtent_ge size
  have hsz := p.size_withCell size
  have hfit := hf.2
  have hlen := Nat.min_le_left size (p.cursor - address)
  have hext := Nat.min_le_right size (p.cursor - address)
  have hres : (p.withCell size).region.resolve (p.cursor + 8) = .ok (p.cursor + 8) :=
    Region.resolve_ok (by
      have := hf.1
      omega)
  have hcheck : (p.withCell size).region.checkMove address (min size (p.cursor - address))
      (p.cursor + 8) = .ok () := by
    have := hp.size_lt
    exact Region.checkMove_ok (by omega) (by omega) (by omega)
  rw [move, Op.get_bind, Op.lift_bind _ (Region.resolve_ok ha), Op.get_bind,
    Op.bind_ok _ (hp.alloc_eq hf)]
  dsimp only
  rw [Op.get_bind, Op.lift_bind _ hres, Op.get_bind, Op.lift_bind _ hcheck, Op.modify_bind]
  rfl

theorem Bounded.move_none (hp : p.Bounded) (ha : address < p.region.size)
    (hf : ¬ p.Fits size) : move address size p = .ok none p := by
  simp only [move, Op.bind_apply, Op.get_apply, Op.lift_apply, Op.pure_apply,
    Region.resolve_ok ha, hp.alloc_none hf]

theorem Chained.move_eq (hp : p.Chained leases cells) (ha : address < p.region.size)
    (hf : p.Fits size) :
    move address size p =
      (do free address; return some (p.cursor + 8) : Op Linear (Option Address))
        (p.withCopy address size) := hp.bounded.move_eq ha hf

theorem Chained.move_none (hp : p.Chained leases cells) (ha : address < p.region.size)
    (hf : ¬ p.Fits size) : move address size p = .ok none p := hp.bounded.move_none ha hf

theorem move_error (ha : p.region.size ≤ address) (size : Nat) :
    move address size p = .error .foreignAddress p := by
  simp only [move, Op.bind_apply, Op.get_apply, Op.lift_apply, Region.resolve_error ha]

end FixedPool.Linear
