import FixedPool.Proofs.Linear.Move
import FixedPool.Proofs.Journal

/-!
What the answers of a linear pool depend on: the size of its region, where its cells end, and its
peak. All of these are told by the leases and the peaks before, none by the bytes.
-/

namespace FixedPool.Linear

def tenure : Tenure Leases where
  after := Leases.after
  Held := Leases.Held
  Owns leases offset := ∃ cell size, leases cell = some ⟨size, false⟩ ∧ cell + 8 ≤ offset ∧
    offset < cell + cellExtent size

/-- What a request is answered with. -/
def offer (p : Linear) (size : Nat) : Option Address :=
  if p.Fits size then some (p.cursor + 8) else none

/-- How a call on a held address, or on none, is answered. -/
def answer (p : Linear) : Call → Reply
  | .alloc size | .realloc _ size => .address (p.offer size)
  | .calloc count size => .address (p.offer (count * size))
  | .free _ | .dealloc _ _ => .done
  | .reset => .peak p.peak

/-- The cells form a chain with a held one on top, and the peak lies between the cursor and the
capacity. -/
structure Steady (p : Linear) (leases : Leases) : Prop where
  chained : ∃ cells, p.Chained leases cells
  trim : p.Trim leases
  cursor_le : p.cursor ≤ p.peak
  peak_le : p.peak ≤ p.region.size

variable {p q : Linear} {leases : Leases} {cells : List Nat} {address size : Nat} {c : Call}
  {reply : Reply} {host : Host} {request : Nat}

/-- A pool without a cell and with no peak yet. -/
theorem Chained.steady (hp : p.Chained (fun _ => none) cells) (hc : p.cursor = 0)
    (hk : p.peak = 0) : p.Steady fun _ => none where
  chained := ⟨cells, hp⟩
  trim := ⟨fun hpos => absurd hc (Nat.ne_of_gt hpos), nofun⟩
  cursor_le := hc.trans_le (Nat.zero_le _)
  peak_le := hk.trans_le (Nat.zero_le _)

theorem steady_of_create (h : create host request = .ok p) : p.Steady fun _ => none := by
  obtain ⟨-, hp, hk⟩ := chained_of_create h
  obtain ⟨-, hc⟩ := hp.chain
  exact hp.steady hc hk

/-! ### One call -/

namespace Chained

theorem alloc_offer (hp : p.Chained leases cells) (hk : p.cursor ≤ p.peak) (size : Nat) :
    ∃ q, alloc size p = .ok (p.offer size) q ∧ q.peak = max p.peak q.cursor := by
  by_cases hf : p.Fits size
  · rw [offer, if_pos hf]
    refine ⟨_, hp.alloc_eq hf, ?_⟩
    rw [peak_withCell, cursor_withCell]
  · rw [offer, if_neg hf]
    exact ⟨p, hp.alloc_none hf, (Nat.max_eq_left hk).symm⟩

theorem calloc_offer (hp : p.Chained leases cells) (hk : p.cursor ≤ p.peak) (count size : Nat) :
    ∃ q, (Allocator.calloc count size : Op Linear _) p = .ok (p.offer (count * size)) q ∧
      q.peak = max p.peak q.cursor := by
  by_cases hf : p.Fits (count * size)
  · rw [offer, if_pos hf]
    refine ⟨_, hp.calloc_eq hf, ?_⟩
    rw [peak_withZeros, cursor_withZeros]
  · rw [offer, if_neg hf]
    exact ⟨p, hp.calloc_none hf, (Nat.max_eq_left hk).symm⟩

theorem of_free (hp : p.Chained leases cells) (hrun : free address p = .ok () q) :
    q.cursor ≤ p.cursor ∧ q.peak = p.peak := by
  obtain ⟨cause, -, he⟩ | ⟨q', -, he, -, hc, hpk, -⟩ := hp.free_cases address
  · rw [hrun] at he
    cases he
  · rw [hrun] at he
    cases he
    exact ⟨hc, hpk⟩

theorem free_peak (hp : p.Chained leases cells) (ht : p.Trim leases) (hk : p.cursor ≤ p.peak)
    (ha : leases.Held address) :
    ∃ q, free address p = .ok () q ∧ q.peak = max p.peak q.cursor := by
  obtain ⟨q, hq⟩ := hp.free_held ht ha
  obtain ⟨hc, hpk⟩ := hp.of_free hq
  refine ⟨q, hq, ?_⟩
  rw [hpk, Nat.max_eq_left (Nat.le_trans hc hk)]

theorem move_offer (hp : p.Chained leases cells) (ht : p.Trim leases) (hk : p.cursor ≤ p.peak)
    (ha : leases.Held address) (size : Nat) :
    ∃ q, move address size p = .ok (p.offer size) q ∧ q.peak = max p.peak q.cursor := by
  have hlt := hp.held_lt ht ha
  by_cases hf : p.Fits size
  · obtain ⟨cell, n, hl, rfl⟩ := ha
    obtain ⟨h, -, -, hrun⟩ := hp.move_held hf hl hlt
    rw [offer, if_pos hf]
    refine ⟨_, hrun, ?_⟩
    rw [peak_withMove, cursor_withMove]
  · rw [offer, if_neg hf]
    exact ⟨p, hp.move_none (Nat.lt_of_lt_of_le hlt hp.cursor_le) hf, (Nat.max_eq_left hk).symm⟩

end Chained

/-- A call on held addresses is answered as the cells and the peak tell, and raises the peak to where
the cells end. -/
theorem Steady.run (h : p.Steady leases) (c : Call)
    (hc : ∀ address, c.pointer? = some address → leases.Held address) :
    ∃ q, c.run p = .ok (p.answer c) q ∧ q.peak = max (if c = .reset then 0 else p.peak) q.cursor := by
  obtain ⟨cells, hp⟩ := h.chained
  cases c with
  | alloc size =>
    obtain ⟨q, hq, hpk⟩ := hp.alloc_offer h.cursor_le size
    exact ⟨q, Op.map_ok _ hq, hpk⟩
  | calloc count size =>
    obtain ⟨q, hq, hpk⟩ := hp.calloc_offer h.cursor_le count size
    exact ⟨q, Op.map_ok _ hq, hpk⟩
  | free address =>
    obtain ⟨q, hq, hpk⟩ := hp.free_peak h.trim h.cursor_le (hc address rfl)
    exact ⟨q, Op.bind_ok _ hq, hpk⟩
  | dealloc address hint =>
    obtain ⟨q, hq, hpk⟩ := hp.free_peak h.trim h.cursor_le (hc address rfl)
    exact ⟨q, Op.bind_ok _ hq, hpk⟩
  | reset => exact ⟨_, rfl, rfl⟩
  | realloc address size =>
    cases address with
    | none =>
      obtain ⟨q, hq, hpk⟩ := hp.alloc_offer h.cursor_le size
      exact ⟨q, Op.map_ok _ hq, hpk⟩
    | some address =>
      cases size with
      | zero =>
        obtain ⟨q, hq, hpk⟩ := hp.free_peak h.trim h.cursor_le (hc address rfl)
        refine ⟨q, ?_, hpk⟩
        rw [run_realloc_zero, answer, offer, if_neg (fun hf => hf.1 rfl)]
        exact Op.bind_ok _ hq
      | succ n =>
        obtain ⟨q, hq, hpk⟩ := hp.move_offer h.trim h.cursor_le (hc address rfl) (n + 1)
        exact ⟨q, Op.map_ok _ hq, hpk⟩

theorem Steady.of_run (h : p.Steady leases)
    (hc : ∀ address, c.pointer? = some address → leases.Held address)
    (hrun : c.run p = .ok reply q) :
    q.Steady (leases.after c reply) ∧ q.region.size = p.region.size ∧
      q.peak = max (if c = .reset then 0 else p.peak) q.cursor := by
  obtain ⟨cells, hp⟩ := h.chained
  have hy := hp.yields_ok hrun
  obtain ⟨cells', hq⟩ := hy.chained
  obtain ⟨q', hq', hpk⟩ := h.run c hc
  rw [hrun] at hq'
  cases hq'
  refine ⟨⟨⟨cells', hq⟩, hy.trim h.trim, ?_, ?_⟩, hy.size, hpk⟩
  · rw [hpk]
    exact Nat.le_max_right ..
  · rw [hpk]
    apply Nat.max_le.2 ⟨_, hq.cursor_le⟩
    rw [hy.size]
    split
    next => exact Nat.zero_le _
    next => exact h.peak_le

theorem Steady.stored {offset : Nat} (h : p.Steady leases) (ho : tenure.Owns leases offset)
    (v : UInt8) : Steady { p with region := p.region.setByte offset v } leases := by
  obtain ⟨cells, hp⟩ := h.chained
  obtain ⟨cell, size, hl, ho, ho'⟩ := ho
  refine ⟨⟨cells, hp.store hl ho ho' v⟩, ⟨h.trim.top_held, h.trim.size_ne_zero⟩, h.cursor_le, ?_⟩
  rw [Region.size_setByte]
  exact h.peak_le

/-- The leases tell where the cells end. -/
theorem Steady.cursor_unique (hp : p.Steady leases) (hq : q.Steady leases) :
    q.cursor = p.cursor ∧ q.top = p.top := by
  obtain ⟨cells, hpc⟩ := hp.chained
  obtain ⟨cells', hqc⟩ := hq.chained
  exact (hqc.reclaimed hq.trim).unique (hpc.reclaimed hp.trim)

/-! ### Two pools side by side -/

/-- Two pools of one size with the same leases and peak, whatever bytes they hold. -/
structure Alongside (p q : Linear) (leases : Leases) : Prop where
  left : p.Steady leases
  right : q.Steady leases
  size_eq : q.region.size = p.region.size
  peak_eq : q.peak = p.peak

namespace Alongside

theorem symm (h : p.Alongside q leases) : q.Alongside p leases :=
  ⟨h.right, h.left, h.size_eq.symm, h.peak_eq.symm⟩

theorem cursor_eq (h : p.Alongside q leases) : q.cursor = p.cursor ∧ q.top = p.top :=
  h.left.cursor_unique h.right

theorem answer_eq (h : p.Alongside q leases) (c : Call) : q.answer c = p.answer c := by
  obtain ⟨hcursor, -⟩ := h.cursor_eq
  have hoffer (size : Nat) : q.offer size = p.offer size := by
    have hfits : q.Fits size ↔ p.Fits size := by rw [Fits, Fits, hcursor, h.size_eq]
    rw [offer, offer, hcursor]
    exact if_congr hfits rfl rfl
  cases c with
  | alloc size => exact congrArg _ (hoffer size)
  | calloc count size => exact congrArg _ (hoffer (count * size))
  | realloc address size => exact congrArg _ (hoffer size)
  | free address => rfl
  | dealloc address hint => rfl
  | reset => exact congrArg _ h.peak_eq

theorem run (h : p.Alongside q leases) (c : Call)
    (hc : ∀ address, c.pointer? = some address → leases.Held address) :
    ∃ reply p' q', c.run p = .ok reply p' ∧ c.run q = .ok reply q' ∧
      p'.Alongside q' (leases.after c reply) := by
  obtain ⟨p', hp, -⟩ := h.left.run c hc
  obtain ⟨q', hq, -⟩ := h.right.run c hc
  rw [h.answer_eq] at hq
  obtain ⟨hp', hps, hpk⟩ := h.left.of_run hc hp
  obtain ⟨hq', hqs, hqk⟩ := h.right.of_run hc hq
  obtain ⟨hcursor, -⟩ := hp'.cursor_unique hq'
  refine ⟨_, p', q', hp, hq, hp', hq', ?_, ?_⟩
  · rw [hqs, hps, h.size_eq]
  · rw [hqk, hpk, hcursor, h.peak_eq]

theorem stats_eq (h : p.Alongside q leases) :
    ∃ counts, Allocator.stats p = .ok counts ∧ Allocator.stats q = .ok counts := by
  obtain ⟨cells, hp⟩ := h.left.chained
  obtain ⟨cells', hq⟩ := h.right.chained
  obtain ⟨hcursor, -⟩ := h.cursor_eq
  refine ⟨_, hp.stats_eq, ?_⟩
  rw [hq.stats_eq, h.size_eq, h.peak_eq, hcursor]

theorem store {offset : Nat} (h : p.Alongside q leases) (ho : tenure.Owns leases offset)
    (v : UInt8) : Alongside { p with region := p.region.setByte offset v } q leases := by
  refine ⟨h.left.stored ho v, h.right, ?_, h.peak_eq⟩
  rw [Region.size_setByte, h.size_eq]

end Alongside

theorem lockstep : Lockstep tenure Alongside where
  symm := fun h => h.symm
  stats := fun h => h.stats_eq
  call := fun c h hc => h.run c hc
  store := fun v h ho => h.store ho v

end FixedPool.Linear
