import FixedPool.Linear.Pool
import FixedPool.Proofs.Linear.Header
import FixedPool.Proofs.Region
import FixedPool.Proofs.Word

/-!
The chain of cells below the cursor. Each cell's header names the cell below, which ends where the
cell begins, and a header is flagged exactly if its cell was released.
-/

namespace FixedPool.Linear

/-- The bytes that a cell for `size` bytes takes: with its header, in multiples of 8. -/
@[irreducible] def cellExtent (size : Nat) : Nat := (size + 15) / 8 * 8

/-- What became of the cell that was put at some offset last. -/
structure Lease where
  size : Nat
  released : Bool
deriving DecidableEq, Repr

/-- The leases by the offsets of the cells' headers. -/
abbrev Leases := Nat → Option Lease

/-- The headers from `top` down, in a pool whose cells end at `stop`, are those of `cells`. -/
def Chain (p : Linear) (leases : Leases) : Nat → Nat → List Nat → Prop
  | top, stop, [] => top = 0 ∧ stop = 0
  | top, stop, cell :: cells => top = cell ∧ ∃ h size,
      p.header cell = .ok (some h) ∧ leases cell = some ⟨size, h.freed⟩ ∧
      cell + cellExtent size = stop ∧ p.Chain leases h.below.toNat cell cells

variable {p q : Linear} {leases leases' : Leases} {top stop cell : Nat} {cells : List Nat}
  {h : Header}

theorem cellExtent_ge (size : Nat) : size + 8 ≤ cellExtent size := by
  unfold cellExtent
  omega

theorem eight_dvd_cellExtent (size : Nat) : 8 ∣ cellExtent size := by
  unfold cellExtent
  exact Nat.dvd_mul_left ..

/-! ### Headers in the region -/

theorem header_of_region (hr : q.region = p.region) (cell : Nat) : q.header cell = p.header cell := by
  rw [header, header, hr]

theorem header_eq (hp : p.region.size < Word.bound) (hc : cell + 8 ≤ p.region.size) :
    p.header cell = .ok (Header.decode (p.region.word cell) (p.region.word (cell + 4))) := by
  have ha : Word.add cell 4 = .ok (cell + 4) := Word.add_ok (by omega)
  rw [header, Region.loadWord_ok hp (by omega), Checked.ok_bind, ha, Checked.ok_bind,
    Region.loadWord_ok hp (by omega)]
  rfl

/-- Only headers that lie in the region are read. -/
theorem end_le_of_header {found : Option Header} (hh : p.header cell = .ok found) :
    cell + 8 ≤ p.region.size := by
  unfold header at hh
  cases ht : p.region.loadWord cell with
  | error cause =>
    rw [ht] at hh
    cases hh
  | ok tagged =>
    rw [ht, Checked.ok_bind] at hh
    unfold Word.add at hh
    split at hh
    · rw [Checked.ok_bind] at hh
      cases hc : p.region.loadWord (cell + 4) with
      | ok check => exact Region.end_le_of_loadWord hc
      | error cause =>
        rw [hc] at hh
        cases hh
    · cases hh

theorem below_lt_of_header (hp : p.region.size < Word.bound) (hc : cell + 8 ≤ p.region.size)
    (hh : p.header cell = .ok (some h)) : h.below.toNat < 2 ^ 31 := by
  rw [header_eq hp hc, Except.ok.injEq] at hh
  exact Header.below_lt_of_decode hh

theorem header_congr (hs : q.region.size = p.region.size) (hp : p.region.size < Word.bound)
    (hc : cell + 8 ≤ p.region.size)
    (hb : ∀ i, cell ≤ i → i < cell + 8 → q.region.byte i = p.region.byte i) :
    q.header cell = p.header cell := by
  have h₀ : q.region.word cell = p.region.word cell :=
    Region.word_congr fun i hi hi' => hb i hi (by omega)
  have h₁ : q.region.word (cell + 4) = p.region.word (cell + 4) :=
    Region.word_congr fun i hi hi' => hb i (by omega) (by omega)
  rw [header_eq hp hc, header_eq (by omega) (by omega), h₀, h₁]

/-- The pool with another header at `cell`. -/
@[irreducible] def withHeader (p : Linear) (cell : Nat) (h : Header) : Linear :=
  { p with region := (p.region.setWord cell h.encode.1).setWord (cell + 4) h.encode.2 }

theorem region_withHeader (p : Linear) (cell : Nat) (h : Header) :
    (p.withHeader cell h).region =
      (p.region.setWord cell h.encode.1).setWord (cell + 4) h.encode.2 := by
  unfold withHeader
  dsimp only

@[simp] theorem cursor_withHeader (p : Linear) (cell : Nat) (h : Header) :
    (p.withHeader cell h).cursor = p.cursor := by
  unfold withHeader
  dsimp only

@[simp] theorem top_withHeader (p : Linear) (cell : Nat) (h : Header) :
    (p.withHeader cell h).top = p.top := by
  unfold withHeader
  dsimp only

@[simp] theorem peak_withHeader (p : Linear) (cell : Nat) (h : Header) :
    (p.withHeader cell h).peak = p.peak := by
  unfold withHeader
  dsimp only

@[simp] theorem size_withHeader (p : Linear) (cell : Nat) (h : Header) :
    (p.withHeader cell h).region.size = p.region.size := by
  rw [region_withHeader, Region.size_setWord, Region.size_setWord]

theorem byte_withHeader (p : Linear) (h : Header) {i : Nat} (hi : i < cell ∨ cell + 8 ≤ i) :
    (p.withHeader cell h).region.byte i = p.region.byte i := by
  rw [region_withHeader, Region.byte_setWord_ne _ _ (by omega),
    Region.byte_setWord_ne _ _ (by omega)]

theorem storeHeader_eq (hp : p.region.size < Word.bound) (hc : cell + 8 ≤ p.region.size)
    (h : Header) : storeHeader cell h p = .ok () (p.withHeader cell h) := by
  have ha : Word.add cell 4 = .ok (cell + 4) := Word.add_ok (by omega)
  have h₀ := Region.storeWord_ok hp (by omega : cell + 4 ≤ p.region.size) h.encode.1
  have h₁ := Region.storeWord_ok (r := p.region.setWord cell h.encode.1) (o := cell + 4)
    (by rwa [Region.size_setWord]) (by rw [Region.size_setWord]; omega) h.encode.2
  simp only [storeHeader, storeWord, Op.bind_apply, Op.get_apply, Op.lift_apply,
    Op.modify_apply, h₀, h₁, ha]
  unfold withHeader
  dsimp only

theorem header_withHeader (hp : p.region.size < Word.bound) (hc : cell + 8 ≤ p.region.size)
    (hb : h.below.toNat < 2 ^ 31) : (p.withHeader cell h).header cell = .ok (some h) := by
  have hs := size_withHeader p cell h
  have h₀ : (p.withHeader cell h).region.word cell = h.encode.1 := by
    rw [region_withHeader, Region.word_setWord_ne _ _ (by omega), Region.word_setWord (by omega)]
  have h₁ : (p.withHeader cell h).region.word (cell + 4) = h.encode.2 := by
    rw [region_withHeader, Region.word_setWord (by rw [Region.size_setWord]; omega)]
  rw [header_eq (by omega) (by omega), h₀, h₁, Header.decode_encode hb]

/-! ### Shape of a chain -/

theorem Chain.dvd (hc : p.Chain leases top stop cells) :
    8 ∣ stop ∧ ∀ cell ∈ cells, 8 ∣ cell := by
  induction cells generalizing top stop with
  | nil =>
    obtain ⟨-, rfl⟩ := hc
    exact ⟨Nat.dvd_zero 8, fun _ hm => nomatch hm⟩
  | cons cell cells ih =>
    obtain ⟨rfl, h, size, -, -, rfl, hc⟩ := hc
    obtain ⟨hd, hds⟩ := ih hc
    refine ⟨Nat.dvd_add hd (eight_dvd_cellExtent size), ?_⟩
    intro c hm
    obtain rfl | hm := List.mem_cons.1 hm
    · exact hd
    · exact hds c hm

theorem Chain.lease_of_mem (hc : p.Chain leases top stop cells) (hm : cell ∈ cells) :
    ∃ h size, p.header cell = .ok (some h) ∧ leases cell = some ⟨size, h.freed⟩ ∧
      cell + cellExtent size ≤ stop := by
  induction cells generalizing top stop with
  | nil => cases hm
  | cons first cells ih =>
    obtain ⟨rfl, h, size, hh, hl, rfl, hc⟩ := hc
    obtain rfl | hm := List.mem_cons.1 hm
    · exact ⟨h, size, hh, hl, Nat.le_refl _⟩
    · obtain ⟨h', size', hh', hl', hle⟩ := ih hc hm
      exact ⟨h', size', hh', hl', by omega⟩

theorem Chain.lt_of_mem (hc : p.Chain leases top stop cells) (hm : cell ∈ cells) :
    cell + 8 ≤ stop := by
  obtain ⟨h, size, -, -, hle⟩ := hc.lease_of_mem hm
  have := cellExtent_ge size
  omega

theorem Chain.descending (hc : p.Chain leases top stop cells) : cells.Pairwise (· > ·) := by
  induction cells generalizing top stop with
  | nil => exact .nil
  | cons first cells ih =>
    obtain ⟨rfl, h, size, -, -, -, hc⟩ := hc
    refine List.pairwise_cons.2 ⟨?_, ih hc⟩
    intro cell hm
    have := hc.lt_of_mem hm
    omega

theorem Chain.getLast?_eq (hc : p.Chain leases top stop cells) (hs : 0 < stop) :
    cells.getLast? = some 0 := by
  induction cells generalizing top stop with
  | nil =>
    obtain ⟨-, rfl⟩ := hc
    cases hs
  | cons first cells ih =>
    obtain ⟨rfl, h, size, -, -, -, hc⟩ := hc
    cases cells with
    | nil =>
      obtain ⟨-, rfl⟩ := hc
      rfl
    | cons next cells =>
      rw [List.getLast?_cons_cons]
      apply ih hc
      obtain ⟨-, -, size', -, -, rfl, -⟩ := hc
      have := cellExtent_ge size'
      omega

theorem Chain.length_le (hc : p.Chain leases top stop cells) : cells.length ≤ stop := by
  induction cells generalizing top stop with
  | nil => exact Nat.zero_le _
  | cons first cells ih =>
    obtain ⟨rfl, h, size, -, -, rfl, hc⟩ := hc
    have := ih hc
    have := cellExtent_ge size
    rw [List.length_cons]
    omega

theorem Chain.end_le (hc : p.Chain leases top stop cells) (hm : cell ∈ cells) {n : Nat}
    {released : Bool} (hl : leases cell = some ⟨n, released⟩) : cell + cellExtent n ≤ stop := by
  obtain ⟨h, size, -, hl', hle⟩ := hc.lease_of_mem hm
  rw [hl, Option.some.injEq, Lease.mk.injEq] at hl'
  rw [hl'.1]
  exact hle

theorem Chain.apart (hc : p.Chain leases top stop cells) {a b m n : Nat} {r s : Bool}
    (ha : a ∈ cells) (hb : b ∈ cells) (hne : a ≠ b) (hla : leases a = some ⟨m, r⟩)
    (hlb : leases b = some ⟨n, s⟩) :
    a + cellExtent m ≤ b ∨ b + cellExtent n ≤ a := by
  induction cells generalizing top stop with
  | nil => cases ha
  | cons first cells ih =>
    obtain ⟨rfl, h, size, -, -, -, hc⟩ := hc
    obtain rfl | ha' := List.mem_cons.1 ha
    · obtain rfl | hb' := List.mem_cons.1 hb
      · exact absurd rfl hne
      · exact .inr (hc.end_le hb' hlb)
    · obtain rfl | hb' := List.mem_cons.1 hb
      · exact .inl (hc.end_le ha' hla)
      · exact ih hc ha' hb'

theorem Chain.congr (hc : p.Chain leases top stop cells)
    (hh : ∀ cell ∈ cells, q.header cell = p.header cell)
    (hl : ∀ cell ∈ cells, leases' cell = leases cell) : q.Chain leases' top stop cells := by
  induction cells generalizing top stop with
  | nil => exact hc
  | cons first cells ih =>
    obtain ⟨rfl, h, size, hf, hlf, hs, hc⟩ := hc
    refine ⟨rfl, h, size, ?_, ?_, hs, ?_⟩
    · rw [hh _ List.mem_cons_self, hf]
    · rw [hl _ List.mem_cons_self, hlf]
    · exact ih hc (fun c hm => hh c (List.mem_cons_of_mem _ hm))
        (fun c hm => hl c (List.mem_cons_of_mem _ hm))

theorem Chain.of_region (hc : p.Chain leases top stop cells) (hr : q.region = p.region) :
    q.Chain leases top stop cells :=
  hc.congr (fun cell _ => header_of_region hr cell) fun _ _ => rfl

end FixedPool.Linear
