import FixedPool.Proofs.Linear.Run

/-!
What a caller can rely on in every run of a linear pool: the bytes in use end with the highest cell
that is held, in whatever order others were released, and calls on held addresses are served without
harm to what is held.
-/

namespace FixedPool.Linear

variable {p q r : Linear} {leases : Leases} {cells : List Nat} {cell size address : Nat}
  {xs ys : List Address} {host : Host} {request : Nat} {c : Call} {reply : Reply}

/-! ### The bytes in use -/

theorem cellExtent_isLeast (size : Nat) :
    IsLeast {m | 8 ∣ m ∧ size + 8 ≤ m} (cellExtent size) := by
  refine ⟨⟨eight_dvd_cellExtent size, cellExtent_ge size⟩, ?_⟩
  rintro m ⟨hd, hm⟩
  unfold cellExtent
  omega

namespace Chained

theorem available_ok (hp : p.Chained leases cells) :
    p.available = .ok (p.region.size - (p.cursor + 8)) := by
  have hle := hp.cursor_le
  have hsize := hp.size_le
  have hb := Word.bound_eq
  have ha : Word.add p.cursor headerSize = .ok (p.cursor + 8) :=
    Word.add_ok (by change p.cursor + 8 < _; omega)
  rw [available, ha]
  rfl

theorem stats_eq (hp : p.Chained leases cells) : Allocator.stats p =
    .ok ⟨p.region.size, p.region.size - (p.cursor + 8), p.cursor, p.peak⟩ :=
  Allocator.stats_ok hp.available_ok

theorem top_eq_zero (hp : p.Chained leases cells) (hc : p.cursor = 0) : p.top = 0 := by
  have hch := hp.chain
  cases cells with
  | nil => exact hch.1
  | cons first cells =>
    have := hch.lt_of_mem List.mem_cons_self
    omega

theorem le_top (hp : p.Chained leases cells) (hm : cell ∈ cells) : cell ≤ p.top := by
  have hch := hp.chain
  cases cells with
  | nil => cases hm
  | cons first cells =>
    obtain ⟨rfl, -⟩ := id hch
    obtain rfl | hm := List.mem_cons.1 hm
    · exact Nat.le_refl _
    · exact Nat.le_of_lt ((List.pairwise_cons.1 hch.descending).1 cell hm)

theorem cursor_eq (hp : p.Chained leases cells) (hc : 0 < p.cursor) {released : Bool}
    (hl : leases p.top = some ⟨size, released⟩) : p.cursor = p.top + cellExtent size := by
  have hch := hp.chain
  cases cells with
  | nil =>
    obtain ⟨-, hz⟩ := hch
    omega
  | cons first cells =>
    obtain ⟨rfl, h, n, -, hl', hn, -⟩ := hch
    rw [hl, Option.some.injEq, Lease.mk.injEq] at hl'
    rw [hl'.1]
    exact hn.symm

end Chained

/-- The cursor stands at the end of the highest cell that was not released, and that cell is the top
one; if there is none, both stand at the start. -/
structure Reclaimed (p : Linear) (leases : Leases) : Prop where
  of_none : (∀ cell size, leases cell ≠ some ⟨size, false⟩) → p.cursor = 0 ∧ p.top = 0
  of_some : ∀ cell size, leases cell = some ⟨size, false⟩ → ∃ n extent,
    leases p.top = some ⟨n, false⟩ ∧ (∀ c m, leases c = some ⟨m, false⟩ → c ≤ p.top) ∧
    IsLeast {m | 8 ∣ m ∧ n + 8 ≤ m} extent ∧ p.cursor = p.top + extent

theorem Chained.reclaimed (hp : p.Chained leases cells) (ht : p.Trim leases) :
    p.Reclaimed leases where
  of_none := by
    intro hn
    have hc : p.cursor = 0 := by
      by_contra hc
      obtain ⟨size, hl⟩ := ht.top_held (Nat.pos_of_ne_zero hc)
      exact hn p.top size hl
    exact ⟨hc, hp.top_eq_zero hc⟩
  of_some := by
    intro cell size hl
    have hc : 0 < p.cursor := by
      have := hp.chain.lt_of_mem (hp.mem_of_leased cell size hl)
      omega
    obtain ⟨n, hn⟩ := ht.top_held hc
    exact ⟨n, cellExtent n, hn, fun c m hm => hp.le_top (hp.mem_of_leased c m hm),
      cellExtent_isLeast n, hp.cursor_eq hc hn⟩

theorem Reclaimed.unique (hp : p.Reclaimed leases) (hq : q.Reclaimed leases) :
    p.cursor = q.cursor ∧ p.top = q.top := by
  by_cases hn : ∀ cell size, leases cell ≠ some ⟨size, false⟩
  · obtain ⟨hc, ht⟩ := hp.of_none hn
    obtain ⟨hc', ht'⟩ := hq.of_none hn
    exact ⟨hc.trans hc'.symm, ht.trans ht'.symm⟩
  push Not at hn
  obtain ⟨cell, size, hl⟩ := hn
  obtain ⟨n, extent, htop, hle, hx, hc⟩ := hp.of_some cell size hl
  obtain ⟨m, extent', htop', hle', hx', hc'⟩ := hq.of_some cell size hl
  -- Each top cell is held and the highest held one, so that there is but one.
  have ht : p.top = q.top := Nat.le_antisymm (hle' _ n htop) (hle _ m htop')
  rw [ht, htop', Option.some.injEq, Lease.mk.injEq] at htop
  rw [htop.1] at hx'
  rw [hc, hc', ht, hx.unique hx']
  exact ⟨rfl, rfl⟩

/-! ### Releasing in any order -/

/-- Releases the cells at the addresses, one after another. -/
def releaseAll : List Address → Op Linear Unit
  | [] => return
  | address :: addresses => do
    free address
    releaseAll addresses

/-- The leases after the cells at the addresses were released. -/
def Leases.releaseAll (leases : Leases) (addresses : List Address) : Leases := fun cell =>
  if cell + 8 ∈ addresses then (leases cell).map ({ · with released := true }) else leases cell

theorem Leases.releaseAll_nil (leases : Leases) : leases.releaseAll [] = leases := by
  funext cell
  exact if_neg List.not_mem_nil

theorem Leases.releaseAll_cons (leases : Leases) (hn : address ∉ xs) :
    leases.releaseAll (address :: xs) = (leases.release address).releaseAll xs := by
  funext cell
  unfold releaseAll release
  by_cases hc : cell + 8 = address
  · rw [if_pos (hc ▸ List.mem_cons_self), if_neg (hc ▸ hn), if_pos hc]
  · simp only [List.mem_cons, hc, false_or, if_false]

theorem Leases.releaseAll_perm (leases : Leases) (hp : xs.Perm ys) :
    leases.releaseAll xs = leases.releaseAll ys := by
  funext cell
  unfold releaseAll
  simp only [hp.mem_iff]

theorem Leases.Held.release {other : Address} (ha : leases.Held address) (hne : address ≠ other) :
    (leases.release other).Held address := by
  obtain ⟨cell, size, hl, rfl⟩ := ha
  refine ⟨cell, size, ?_, rfl⟩
  rw [release_of_ne leases hne, hl]

theorem Chained.releaseAll (hp : p.Chained leases cells) (ht : p.Trim leases) (hn : xs.Nodup)
    (hh : ∀ a ∈ xs, leases.Held a) :
    ∃ q cells', Linear.releaseAll xs p = .ok () q ∧ q.Chained (leases.releaseAll xs) cells' ∧
      q.Trim (leases.releaseAll xs) := by
  -- On the list: the addresses that are left stay held when the first is released.
  induction xs generalizing p leases cells with
  | nil =>
    rw [Leases.releaseAll_nil]
    exact ⟨p, cells, rfl, hp, ht⟩
  | cons address xs ih =>
    obtain ⟨hne, hn⟩ := List.nodup_cons.1 hn
    obtain ⟨q, hq⟩ := hp.free_held ht (hh address List.mem_cons_self)
    have hy := hp.yields_free hq
    obtain ⟨cells', hc⟩ := hy.chained
    obtain ⟨r, cells'', hr, hrest⟩ := ih hc (hy.trim ht) hn fun a ha =>
      (hh a (List.mem_cons_of_mem _ ha)).release fun he => hne (he ▸ ha)
    rw [Leases.releaseAll_cons leases hne]
    refine ⟨r, cells'', ?_, hrest⟩
    rw [Linear.releaseAll, Op.bind_ok _ hq]
    exact hr

theorem Reachable.reclaims (h : Reachable host request p leases) :
    p.Reclaimed leases ∧
    ∀ xs ys : List Address, xs.Nodup → xs.Perm ys → (∀ a ∈ xs, leases.Held a) →
      ∃ q r, releaseAll xs p = .ok () q ∧ releaseAll ys p = .ok () r ∧
        q.cursor = r.cursor ∧ q.top = r.top := by
  obtain ⟨cells, hp⟩ := h.chained
  refine ⟨hp.reclaimed h.trim, ?_⟩
  intro xs ys hn hperm hh
  obtain ⟨q, cells', hq, hqc, hqt⟩ := hp.releaseAll h.trim hn hh
  obtain ⟨r, cells'', hr, hrc, hrt⟩ := hp.releaseAll h.trim (hperm.nodup_iff.1 hn)
    fun a ha => hh a (hperm.mem_iff.2 ha)
  rw [← leases.releaseAll_perm hperm] at hrc hrt
  exact ⟨q, r, hq, hr, (hqc.reclaimed hqt).unique (hrc.reclaimed hrt)⟩

/-- A pool of 64 bytes with three cells, of which the middle one is released and the others are
held. -/
theorem reclaims_below_top : ∃ p leases, Reachable ⟨fun _ => true⟩ 64 p leases ∧
    leases 0 = some ⟨10, false⟩ ∧ leases 24 = some ⟨10, true⟩ ∧ leases 48 = some ⟨8, false⟩ ∧
    p.Reclaimed leases ∧
    ∀ xs ys : List Address, xs.Nodup → xs.Perm ys → (∀ a ∈ xs, leases.Held a) →
      ∃ q r, releaseAll xs p = .ok () q ∧ releaseAll ys p = .ok () r ∧
        q.cursor = r.cursor ∧ q.top = r.top := by
  have h₀ : Reachable ⟨fun _ => true⟩ 64 _ _ := .created rfl
  have h₁ := h₀.returned (.alloc 10) rfl
  have h₂ := h₁.returned (.alloc 10) rfl
  have h₃ := h₂.returned (.alloc 8) rfl
  have h₄ := h₃.returned (.free 32) rfl
  exact ⟨_, _, h₄, rfl, rfl, rfl, h₄.reclaims⟩

/-! ### Calls on held addresses -/

/-- The bytes of a cell that its caller may write to. -/
def payload (cell size : Nat) : Span := ⟨cell + 8, size⟩

/-- The payloads of the cells that were not released are aligned, lie below the cursor, and have no
byte in common with each other or with a header of the chain. -/
structure Separated (p : Linear) (leases : Leases) : Prop where
  aligned : ∀ cell n, leases cell = some ⟨n, false⟩ → 8 ∣ (payload cell n).start
  inside : ∀ cell n, leases cell = some ⟨n, false⟩ →
    8 ≤ (payload cell n).start ∧ (payload cell n).start + n ≤ p.cursor
  cursor_le : p.cursor ≤ p.region.size
  apart : ∀ a b m n, leases a = some ⟨m, false⟩ → leases b = some ⟨n, false⟩ → a ≠ b →
    (payload a m).Apart (payload b n)
  headers_apart : ∃ cells, p.Chain leases p.top p.cursor cells ∧
    ∀ cell n, leases cell = some ⟨n, false⟩ → ∀ c ∈ cells, (payload cell n).Apart ⟨c, 8⟩

/-- The answer of a call is the address of a new cell of the right size, the payloads are separate
from then on, and those held before keep their bytes. -/
structure Isolates (p : Linear) (leases : Leases) (c : Call) (reply : Reply) (q : Linear) :
    Prop where
  result : ∀ address n, reply = .address (some address) → c.request? = some n →
    ¬ leases.Held address ∧
    ∃ cell, address = (payload cell n).start ∧ leases.after c reply cell = some ⟨n, false⟩
  separated : q.Separated (leases.after c reply)
  byte : ∀ cell n, leases cell = some ⟨n, false⟩ → ∀ o, (payload cell n).Has o →
    q.region.byte o = p.region.byte o

namespace Chained

theorem separated (hp : p.Chained leases cells) : p.Separated leases where
  aligned := by
    intro cell n hl
    exact Nat.dvd_add (hp.chain.dvd.2 cell (hp.mem_of_leased cell n hl)) (Nat.dvd_refl 8)
  inside := by
    intro cell n hl
    have hle := hp.end_le hl
    have hx := cellExtent_ge n
    refine ⟨Nat.le_add_left 8 cell, ?_⟩
    change cell + 8 + n ≤ p.cursor
    omega
  cursor_le := hp.cursor_le
  apart := by
    intro a b m n ha hb hne
    have hap := hp.chain.apart (hp.mem_of_leased a m ha) (hp.mem_of_leased b n hb) hne ha hb
    have hm := cellExtent_ge m
    have hn := cellExtent_ge n
    change a + 8 + m ≤ b + 8 ∨ b + 8 + n ≤ a + 8
    omega
  headers_apart := by
    refine ⟨cells, hp.chain, ?_⟩
    intro cell n hl c hm
    have hx := cellExtent_ge n
    obtain rfl | hne := eq_or_ne cell c
    · exact .inr (Nat.le_refl _)
    · obtain ⟨h, k, -, hk, -⟩ := hp.chain.lease_of_mem hm
      have hap := hp.chain.apart (hp.mem_of_leased cell n hl) hm hne hl hk
      have hy := cellExtent_ge k
      change cell + 8 + n ≤ c ∨ c + 8 ≤ cell + 8
      omega

/-- The header in front of a held address lies in no held payload. -/
theorem payload_outside {o : Nat} (hp : p.Chained leases cells)
    (hl : leases cell = some ⟨size, false⟩) (ho : (payload cell size).Has o)
    (ha : leases.Held address) : o + 8 < address ∨ address ≤ o := by
  obtain ⟨c, n, hc, rfl⟩ := ha
  obtain ⟨ho, ho'⟩ : cell + 8 ≤ o ∧ o < cell + 8 + size := ho
  have hx := cellExtent_ge size
  have := hp.payload_apart hl ho (by omega) (hp.mem_of_leased c n hc)
  omega

end Chained

/-- The cell at the address of an answer is leased, unless the call releases that address. -/
theorem Leases.after_self (leases : Leases) (hn : c.request? = some size)
    (hp : c.pointer? ≠ some (cell + 8)) :
    leases.after c (.address (some (cell + 8))) cell = some ⟨size, false⟩ := by
  cases c with
  | alloc n =>
    cases hn
    exact leases.acquire_self cell size
  | calloc count n =>
    cases hn
    exact leases.acquire_self cell (count * n)
  | realloc old n =>
    cases hn
    cases old with
    | none => exact leases.acquire_self cell size
    | some old =>
      have hne : cell + 8 ≠ old := fun he => hp (congrArg some he.symm)
      exact (release_of_ne _ hne).trans (leases.acquire_self cell size)
  | free _ => cases hn
  | dealloc _ _ => cases hn
  | reset => cases hn

theorem Reachable.isolates (h : Reachable host request p leases) (c : Call)
    (hc : ∀ address, c.pointer? = some address → leases.Held address) :
    ∃ reply q, c.run p = .ok reply q ∧ p.Isolates leases c reply q := by
  obtain ⟨cells, hp⟩ := h.chained
  obtain ⟨reply, q, hrun, hr, hy⟩ | ⟨cause, q, -, -, hn, -⟩ := hp.settled c
  · obtain ⟨cells', hq⟩ := hy.chained
    have hfresh : ¬ leases.Held (p.cursor + 8) := by
      intro hh
      have := hp.held_lt h.trim hh
      omega
    refine ⟨reply, q, hrun, ?_, hq.separated, ?_⟩
    · rintro address n rfl hn
      obtain rfl := hr address rfl
      exact ⟨hfresh, p.cursor, rfl, leases.after_self hn fun hp => hfresh (hc _ hp)⟩
    · intro cell n hl o ho
      have hle := hp.end_le hl
      have hx := cellExtent_ge n
      apply hy.byte o
      · obtain ⟨-, ho⟩ : cell + 8 ≤ o ∧ o < cell + 8 + n := ho
        omega
      · exact fun address ha => hp.payload_outside hl ho (hc address ha)
  · obtain ⟨address, ha, hn⟩ := hn h.trim
    exact absurd (hc address ha) hn

/-- A cell of a pool of 64 bytes moves to a new one behind it. -/
theorem isolates_growing : ∃ p leases, Reachable ⟨fun _ => true⟩ 64 p leases ∧
    leases 0 = some ⟨10, false⟩ ∧ ∃ reply q, (Call.realloc (some 8) 20).run p = .ok reply q ∧
      p.Isolates leases (.realloc (some 8) 20) reply q := by
  have h₀ : Reachable ⟨fun _ => true⟩ 64 _ _ := .created rfl
  have h₁ := h₀.returned (.alloc 10) rfl
  refine ⟨_, _, h₁, rfl, h₁.isolates (.realloc (some 8) 20) ?_⟩
  rintro address ⟨⟩
  exact ⟨0, 10, rfl, rfl⟩

end FixedPool.Linear
