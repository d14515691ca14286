import FixedPool.Proofs.Buddy.Live
import Mathlib.Algebra.BigOperators.Group.Finset.Basic

/-!
What each call on a buddy pool does to its live blocks. A call that is given an address at which no
live block begins fails and changes nothing.
-/

namespace FixedPool

/-- The block that a request is served by, and the lists that stay. -/
def FreeLists.served (F : FreeLists) (t : Tiers) (size : Nat) : Option (Block × FreeLists) :=
  match t.fit size with
  | .ok (some tier) => (F.carved tier).map fun whole => (⟨tier, whole.1⟩, whole.2)
  | _ => none

/-- A request for another size moves a block that is too small, and one that is at least twice too
large if a smaller one is to be had. -/
def Tiers.Misfits (t : Tiers) (b : Block) (size : Nat) : Prop :=
  t.extent b.tier < size ∨ size ≤ t.extent b.tier / 2 ∧ leastBlock < t.extent b.tier

namespace Buddy

@[irreducible] def withRegion (p : Buddy) (r : Region) : Buddy := { p with region := r }

/-- Copies a prefix of a block to one that is handed out for a request, and releases it; if there is
no such block, the answer is `kept`. -/
def relocate (b : Block) (size length : Nat) (kept : Option Address) :
    Op Buddy (Option Address) := do
  match ← alloc size with
  | none => return kept
  | some target =>
    transfer b target length
    return some target

/-- One state follows another as a block for a request is handed out. -/
structure Acquires (p : Buddy) (live : Finset Block) (size : Nat) (b : Block) (G : FreeLists)
    (q : Buddy) : Prop where
  sound : q.Sound (insert b live) G
  vacant : b.Vacant live
  keeps : p.Keeps q live
  extent_eq : p.tiers.extent b.tier = sizeClass size
  peak_eq : q.peak = max p.peak q.used

variable {p q : Buddy} {live : Finset Block} {F G : FreeLists} {b c : Block}
  {tier i size address : Nat} {r : Region}

@[simp] theorem region_withRegion (p : Buddy) (r : Region) : (p.withRegion r).region = r := by
  unfold withRegion
  dsimp only

@[simp] theorem tiers_withRegion (p : Buddy) (r : Region) : (p.withRegion r).tiers = p.tiers := by
  unfold withRegion
  dsimp only

@[simp] theorem used_withRegion (p : Buddy) (r : Region) : (p.withRegion r).used = p.used := by
  unfold withRegion
  dsimp only

@[simp] theorem peak_withRegion (p : Buddy) (r : Region) : (p.withRegion r).peak = p.peak := by
  unfold withRegion
  dsimp only

/-- The requested bytes are among those of the block that is handed out. -/
theorem Acquires.has_block (h : p.Acquires live size b G q) {o : Nat}
    (ho : (⟨p.tiers.offset b, size⟩ : Span).Has o) : (p.tiers.span b).Has o := by
  have hle := (Tiers.sizeClass_isLeast size).1.2
  rw [← h.extent_eq] at hle
  exact ⟨ho.1, Nat.lt_of_lt_of_le ho.2 (Nat.add_le_add_left hle _)⟩

theorem Acquires.end_le (h : p.Acquires live size b G q) :
    p.tiers.offset b + size ≤ q.region.size := by
  have hend := (h.sound.live_holds b (Finset.mem_insert_self b live)).end_le h.sound.wellFormed
  have hle := (Tiers.sizeClass_isLeast size).1.2
  rw [h.keeps.tiers, h.extent_eq] at hend
  rw [h.sound.size_eq, h.keeps.tiers]
  exact Nat.le_trans (Nat.add_le_add_left hle _) hend

namespace Sound

theorem vacant_erase (h : p.Sound live F) (hb : b ∈ live) : b.Vacant (live.erase b) :=
  h.live_apart.vacant_erase hb

/-- No byte of a listed block is one of a live block. -/
theorem not_has_of_lists (h : p.Sound live F) (hb : F.Lists b) (hc : c ∈ live) {o : Nat}
    (ho : (p.tiers.span b).Has o) : ¬ (p.tiers.span c).Has o := by
  intro hco
  exact h.vacant_of_lists hb c hc
    (Tiers.meets_of_has (h.holds b hb).1 (h.live_holds c hc).1 ho hco)

/-- Callers may write to the bytes of a live block. -/
theorem withRegion (h : p.Sound live F) (hc : c ∈ live) (hs : r.size = p.region.size)
    (hr : ∀ o, ¬ (p.tiers.span c).Has o → r.byte o = p.region.byte o) :
    (p.withRegion r).Sound live F ∧ p.Keeps (p.withRegion r) (live.erase c) := by
  have hmarks : (p.withRegion r).marks = p.marks := by unfold Buddy.withRegion; dsimp only
  have hheads : (p.withRegion r).heads = p.heads := by unfold Buddy.withRegion; dsimp only
  constructor
  · refine ⟨h.congr (tiers_withRegion p r) hmarks hheads ?_ ?_, ?_⟩
    · rw [region_withRegion, hs]
    · rintro o ⟨a, ha, hao⟩
      rw [region_withRegion]
      exact hr o (h.not_has_of_lists ha hc hao)
    · rw [used_withRegion, tiers_withRegion]
      exact h.used_eq
  · refine ⟨tiers_withRegion p r, by rw [region_withRegion, hs], ?_⟩
    intro b hb o ho
    obtain ⟨hne, hb⟩ := Finset.mem_erase.1 hb
    rw [region_withRegion]
    apply hr
    intro hco
    exact hne (h.meets_eq hb hc
      (Tiers.meets_of_has (h.live_holds b hb).1 (h.live_holds c hc).1 ho hco))

theorem stored (h : p.Sound live F) (hb : b ∈ live) {o : Nat} (ho : (p.tiers.span b).Has o)
    (v : UInt8) : Sound { p with region := p.region.setByte o v } live F := by
  obtain ⟨hs, -⟩ := h.withRegion hb (Region.size_setByte ..) fun i hi =>
    Region.byte_setByte_ne _ v fun he => hi (he ▸ ho)
  unfold Buddy.withRegion at hs
  exact hs

/-! ### Releasing -/

theorem retire (h : p.Sound live F) (hb : b ∈ live) :
    ∃ q, Buddy.retire b p = .ok () q ∧
      q.Sound (live.erase b) (F.coalesced b.tier b.index) ∧ p.Keeps q (live.erase b) ∧
      q.peak = p.peak := by
  have hsum := Finset.add_sum_erase live (fun l => p.tiers.extent l.tier) hb
  have hused := h.used_eq
  let p₁ : Buddy := { p with used := p.used - p.tiers.extent b.tier }
  have h₁ : p₁.Represents (insert b (live.erase b)) F := by
    rw [Finset.insert_erase hb]
    exact h.congr rfl rfl rfl rfl fun _ _ => rfl
  obtain ⟨q, hq, hr, hf⟩ := h₁.coalesceAt (h.vacant_erase hb)
  refine ⟨q, ?_, ⟨hr, ?_⟩, ⟨hf.tiers, hf.size, hf.byte⟩, hf.peak⟩
  · rw [Buddy.retire, Op.get_bind, Op.get_bind,
      Op.lift_bind _ (Tiers.width_ok h.wellFormed (h.live_holds b hb).1),
      Op.lift_bind _ (Word.sub_ok (by omega)), Op.modify_bind]
    exact hq
  · have hu : q.used = p.used - p.tiers.extent b.tier := hf.used
    have ht : q.tiers = p.tiers := hf.tiers
    rw [hu, ht]
    omega

/-- Releasing a live block merges it as far as the lists allow. -/
theorem free_coalesced (h : p.Sound live F) (hb : b ∈ live) :
    ∃ q, free (p.tiers.offset b) p = .ok () q ∧
      q.Sound (live.erase b) (F.coalesced b.tier b.index) ∧ p.Keeps q (live.erase b) ∧
      q.peak = p.peak := by
  obtain ⟨q, hq, hrest⟩ := h.retire hb
  refine ⟨q, ?_, hrest⟩
  rw [free, Op.get_bind, Op.lift_bind _ (Region.resolve_ok (h.offset_lt_size hb)),
    Op.get_bind, Op.lift_bind _ (h.liveAt_some hb)]
  exact hq

theorem free_ok (h : p.Sound live F) (hb : b ∈ live) :
    ∃ q G, free (p.tiers.offset b) p = .ok () q ∧ q.Sound (live.erase b) G ∧
      p.Keeps q (live.erase b) := by
  obtain ⟨q, hq, hs, hk, -⟩ := h.free_coalesced hb
  exact ⟨q, _, hq, hs, hk⟩

theorem free_error (h : p.Sound live F) (ha : ∀ b ∈ live, p.tiers.offset b ≠ address) :
    ∃ cause, free address p = .error cause p := by
  by_cases hs : address < p.region.size
  · rw [free, Op.get_bind, Op.lift_bind _ (Region.resolve_ok hs), Op.get_bind,
      Op.lift_bind _ (h.liveAt_none ha)]
    exact ⟨_, rfl⟩
  · rw [free, Op.get_bind, Op.lift_bind_error _ (Region.resolve_error (Nat.le_of_not_lt hs))]
    exact ⟨_, rfl⟩

/-- With any hint, the release of a live block ends as one without a hint. -/
theorem dealloc_eq (h : p.Sound live F) (hb : b ∈ live) (hint : Nat) :
    dealloc (p.tiers.offset b) hint p = free (p.tiers.offset b) p := by
  obtain ⟨found, hfound, hlive⟩ := h.liveHinted_ok (p.tiers.offset b) hint
  have hr := Region.resolve_ok (h.offset_lt_size hb)
  rw [dealloc, Op.get_bind, Op.lift_bind _ hr, Op.get_bind, Op.lift_bind _ hfound,
    free, Op.get_bind, Op.lift_bind _ hr, Op.get_bind, Op.lift_bind _ (h.liveAt_some hb)]
  cases found with
  | none =>
    dsimp only
    rw [Op.get_bind, Op.lift_bind _ (h.liveAt_some hb)]
  | some c =>
    obtain ⟨hc, ho⟩ := hlive c rfl
    rw [h.eq_of_offset hc hb ho]

theorem dealloc_error (h : p.Sound live F) (ha : ∀ b ∈ live, p.tiers.offset b ≠ address)
    (hint : Nat) : ∃ cause, dealloc address hint p = .error cause p := by
  by_cases hs : address < p.region.size
  · obtain ⟨found, hfound, hlive⟩ := h.liveHinted_ok address hint
    rw [dealloc, Op.get_bind, Op.lift_bind _ (Region.resolve_ok hs), Op.get_bind,
      Op.lift_bind _ hfound]
    cases found with
    | none =>
      dsimp only
      rw [Op.get_bind, Op.lift_bind _ (h.liveAt_none ha)]
      exact ⟨_, rfl⟩
    | some c =>
      obtain ⟨hc, ho⟩ := hlive c rfl
      exact absurd ho (ha c hc)
  · rw [dealloc, Op.get_bind, Op.lift_bind_error _ (Region.resolve_error (Nat.le_of_not_lt hs))]
    exact ⟨_, rfl⟩

/-! ### Allocation -/

theorem alloc_none_of_size (_ : p.Sound live F) (hn : size = 0 ∨ p.tiers.capacity < size) :
    alloc size p = .ok none p := by
  rw [alloc, Op.get_bind, Op.lift_bind _ (Tiers.fit_none _ hn)]
  rfl

theorem alloc_none_of_carved (h : p.Sound live F) (ht : tier < p.tiers.count)
    (hfit : p.tiers.fit size = .ok (some tier)) (hc : F.carved tier = none) :
    alloc size p = .ok none p := by
  rw [alloc, Op.get_bind, Op.lift_bind _ hfit]
  dsimp only
  rw [Op.bind_ok _ (h.carve_none ht hc)]
  rfl

theorem alloc_some (h : p.Sound live F) (ht : tier < p.tiers.count)
    (hfit : p.tiers.fit size = .ok (some tier)) (hc : F.carved tier = some (i, G)) :
    ∃ q, alloc size p = .ok (some (p.tiers.offset ⟨tier, i⟩)) q ∧
      q.Sound (insert ⟨tier, i⟩ live) G ∧ (⟨tier, i⟩ : Block).Vacant live ∧ p.Keeps q live ∧
      q.peak = max p.peak q.used := by
  obtain ⟨p₁, hcarve, hr, hv, hf⟩ := h.carve_some ht hc
  let b : Block := ⟨tier, i⟩
  have hbl : b ∉ live := fun hbl => hv b hbl (.refl b)
  have hold : p₁.tiers.Holds b := hr.live_holds b (Finset.mem_insert_self b live)
  have hw := hr.wellFormed
  have hsum := Finset.sum_insert (f := fun l : Block => p₁.tiers.extent l.tier) hbl
  have hle := Tiers.sum_extent_le hw hr.live_holds hr.live_apart
  have hcap := Tiers.capacity_lt hw
  have hused : p₁.used = ∑ l ∈ live, p₁.tiers.extent l.tier := by
    rw [hf.used, hf.tiers]
    exact h.used_eq
  have hadd : p₁.used + p₁.tiers.extent tier = ∑ l ∈ insert b live, p₁.tiers.extent l.tier := by
    rw [hsum, hused, Nat.add_comm]
  let p₂ : Buddy :=
    { p₁ with
      used := p₁.used + p₁.tiers.extent tier
      peak := max p₁.peak (p₁.used + p₁.tiers.extent tier) }
  have hlt : p₁.tiers.offset b < p₁.region.size :=
    hr.offset_lt_size (Finset.mem_insert_self b live)
  refine ⟨p₂, ?_, ⟨hr.congr rfl rfl rfl rfl fun _ _ => rfl, hadd⟩, hv, ⟨hf.tiers, hf.size, hf.byte⟩,
    congrArg (max · p₂.used) hf.peak⟩
  rw [alloc, Op.get_bind, Op.lift_bind _ hfit]
  dsimp only
  rw [Op.bind_ok _ hcarve]
  dsimp only
  rw [Op.get_bind, Op.get_bind, Op.lift_bind _ (Tiers.width_ok hw hold.1),
    Op.lift_bind _ (Word.add_ok (Nat.lt_of_le_of_lt (hadd.trans_le hle) hcap)),
    Op.modify_bind, Op.get_bind, Op.lift_bind _ (Tiers.start_ok hw hold),
    Op.get_bind, Op.lift_bind _ (Region.addressAt_ok hlt),
    ← hf.tiers]
  rfl

/-- A request is served by the block that the lists hand out for the tier of its size class. -/
theorem alloc_carved (h : p.Sound live F) (hn : size ≠ 0) (hcap : size ≤ p.tiers.capacity) :
    ∃ tier < p.tiers.count, p.tiers.extent tier = sizeClass size ∧
      ((F.carved tier = none ∧ alloc size p = .ok none p) ∨
      ∃ i G q, F.carved tier = some (i, G) ∧
        alloc size p = .ok (some (p.tiers.offset ⟨tier, i⟩)) q ∧
        q.Sound (insert ⟨tier, i⟩ live) G ∧ (⟨tier, i⟩ : Block).Vacant live ∧ p.Keeps q live) := by
  obtain ⟨tier, ht, he, hfit⟩ := Tiers.fit_some h.wellFormed hn hcap
  refine ⟨tier, ht, he, ?_⟩
  cases hc : F.carved tier with
  | none => exact .inl ⟨rfl, h.alloc_none_of_carved ht hfit hc⟩
  | some whole =>
    obtain ⟨q, hq, hs, hv, hk, -⟩ := h.alloc_some ht hfit hc
    exact .inr ⟨_, _, q, rfl, hq, hs, hv, hk⟩

theorem alloc_of_not_served (h : p.Sound live F) (hs : F.served p.tiers size = none) :
    alloc size p = .ok none p := by
  by_cases hn : size = 0 ∨ p.tiers.capacity < size
  · exact h.alloc_none_of_size hn
  rw [not_or, Nat.not_lt] at hn
  obtain ⟨tier, ht, -, hfit⟩ := Tiers.fit_some h.wellFormed hn.1 hn.2
  rw [FreeLists.served, hfit] at hs
  exact h.alloc_none_of_carved ht hfit (Option.map_eq_none_iff.1 hs)

theorem alloc_of_served (h : p.Sound live F) (hs : F.served p.tiers size = some (b, G)) :
    ∃ q, alloc size p = .ok (some (p.tiers.offset b)) q ∧ p.Acquires live size b G q := by
  by_cases hn : size = 0 ∨ p.tiers.capacity < size
  · rw [FreeLists.served, Tiers.fit_none _ hn] at hs
    cases hs
  rw [not_or, Nat.not_lt] at hn
  obtain ⟨tier, ht, he, hfit⟩ := Tiers.fit_some h.wellFormed hn.1 hn.2
  rw [FreeLists.served, hfit] at hs
  obtain ⟨whole, hc, hw⟩ := Option.map_eq_some_iff.1 hs
  cases hw
  obtain ⟨q, hq, hsound, hv, hk, hpk⟩ := h.alloc_some ht hfit hc
  exact ⟨q, hq, hsound, hv, hk, he, hpk⟩

/-- A request is served from a vacant block of its size class, and fails only if there is none. -/
theorem alloc_cases (h : p.Sound live F) (size : Nat) :
    (alloc size p = .ok none p ∧ (size = 0 ∨ p.tiers.capacity < size ∨
      ∀ b, p.tiers.Holds b → p.tiers.extent b.tier = sizeClass size → ¬ b.Vacant live)) ∨
    ∃ b q G, alloc size p = .ok (some (p.tiers.offset b)) q ∧ q.Sound (insert b live) G ∧
      b.Vacant live ∧ p.Keeps q live ∧ size ≠ 0 ∧ size ≤ p.tiers.capacity ∧
      p.tiers.extent b.tier = sizeClass size := by
  by_cases hn : size = 0 ∨ p.tiers.capacity < size
  · exact .inl ⟨h.alloc_none_of_size hn, hn.imp_right .inl⟩
  rw [not_or, Nat.not_lt] at hn
  obtain ⟨tier, ht, he, ⟨hc, ha⟩ | ⟨i, G, q, -, hq, hs, hv, hk⟩⟩ := h.alloc_carved hn.1 hn.2
  · refine .inl ⟨ha, .inr (.inr ?_)⟩
    intro b hb hbe hv
    obtain ⟨i, G, hs⟩ := h.exists_carved hb hv
    rw [Tiers.extent_inj hb.1 ht (hbe.trans he.symm), hc] at hs
    cases hs
  · exact .inr ⟨_, q, G, hq, hs, hv, hk, hn.1, hn.2, he⟩

/-! ### Resizing -/

/-- Moving the bytes of a block to another one keeps those of all other blocks. -/
theorem transfer (h : p.Sound live F) (hb : b ∈ live) (hc : c ∈ live) (hne : c ≠ b) (length : Nat)
    (hl : length ≤ p.tiers.extent b.tier) (hl' : length ≤ p.tiers.extent c.tier) :
    ∃ q, Buddy.transfer b (p.tiers.offset c) length p = .ok () q ∧
      q.Sound (live.erase b) (F.coalesced b.tier b.index) ∧ p.Keeps q ((live.erase b).erase c) ∧
      q.peak = p.peak ∧
      p.region.Carries (p.tiers.offset b) length (p.tiers.offset c) q.region := by
  have hw := h.wellFormed
  have hend := (h.live_holds b hb).end_le hw
  have hend' := (h.live_holds c hc).end_le hw
  have hsize := h.size_eq
  let r := p.region.move (p.tiers.offset b) length (p.tiers.offset c)
  have hr : ∀ o, ¬ (p.tiers.span c).Has o → r.byte o = p.region.byte o := by
    intro o ho
    rw [Region.byte_move (by omega) (by omega), if_neg]
    rintro ⟨h₁, h₂⟩
    exact ho ⟨h₁, Nat.lt_of_lt_of_le h₂ (Nat.add_le_add_left hl' _)⟩
  obtain ⟨h₁, hk₁⟩ := h.withRegion hc (Region.size_move ..) hr
  obtain ⟨q, hq, hs, hk, hpk⟩ := h₁.retire hb
  refine ⟨q, ?_, hs, ?_, hpk.trans (peak_withRegion p r), ?_⟩
  · rw [Buddy.transfer, Op.get_bind, Op.lift_bind _ (Tiers.start_ok hw (h.live_holds b hb)),
      Op.get_bind, Op.lift_bind _ (Region.resolve_ok (h.offset_lt_size hc)),
      Op.get_bind, Op.lift_bind _ (Region.checkMove_ok h.size_lt (by omega) (by omega)),
      Op.modify_bind]
    unfold Buddy.withRegion at hq
    exact hq
  · refine (hk₁.mono ?_).trans (hk.mono (Finset.erase_subset c _))
    intro l hl
    obtain ⟨hlc, hl⟩ := Finset.mem_erase.1 hl
    exact Finset.mem_erase.2 ⟨hlc, Finset.mem_of_mem_erase hl⟩
  · -- The release comes after the copy, and keeps the bytes of the new block.
    apply (Region.carries_move (by omega) (by omega)).congr (fun _ _ => rfl)
    intro i hi
    rw [hk.byte c (Finset.mem_erase.2 ⟨hne, hc⟩) _ ?_, region_withRegion]
    rw [tiers_withRegion]
    exact ⟨Nat.le_add_right _ i, Nat.add_lt_add_left (Nat.lt_of_lt_of_le hi hl') _⟩

/-- A prefix of a live block is copied to one that was just handed out, and the block released. -/
theorem transfer_fresh (h : q.Sound (insert c live) G) (hv : c.Vacant live) (hk : p.Keeps q live)
    (hb : b ∈ live) (length : Nat) (hl : length ≤ p.tiers.extent b.tier)
    (hl' : length ≤ p.tiers.extent c.tier) :
    ∃ p₁, Buddy.transfer b (p.tiers.offset c) length q = .ok () p₁ ∧
      p₁.Sound ((insert c live).erase b) (G.coalesced b.tier b.index) ∧ p.Keeps p₁ (live.erase b) ∧
      p₁.peak = q.peak ∧
      p.region.Carries (p.tiers.offset b) length (p.tiers.offset c) p₁.region := by
  have hcl : c ∉ live := fun hcl => hv c hcl (.refl c)
  have hold (i : Nat) (hi : i < length) : p.region.byte (p.tiers.offset b + i) =
      q.region.byte (p.tiers.offset b + i) :=
    (hk.byte b hb _ ⟨Nat.le_add_right _ i, Nat.add_lt_add_left (Nat.lt_of_lt_of_le hi hl) _⟩).symm
  rw [← hk.tiers] at hl hl' hold ⊢
  obtain ⟨p₁, hq, hs, hk', hpk, hcopy⟩ := h.transfer (Finset.mem_insert_of_mem hb)
    (Finset.mem_insert_self c live) (fun he => hcl (he ▸ hb)) length hl hl'
  refine ⟨p₁, hq, hs, (hk.mono (Finset.erase_subset b live)).trans (hk'.mono ?_), hpk,
    hcopy.congr hold fun _ _ => rfl⟩
  intro l hl
  obtain ⟨hlb, hl⟩ := Finset.mem_erase.1 hl
  have hlc : l ≠ c := fun he => hcl (he ▸ hl)
  exact Finset.mem_erase.2 ⟨hlc, Finset.mem_erase.2 ⟨hlb, Finset.mem_insert_of_mem hl⟩⟩

theorem relocate_of_not_served (h : p.Sound live F) (hs : F.served p.tiers size = none) (length : Nat)
    (kept : Option Address) : relocate b size length kept p = .ok kept p := by
  rw [relocate, Op.bind_ok _ (h.alloc_of_not_served hs)]
  rfl

theorem relocate_of_served (h : p.Sound live F) (hb : b ∈ live)
    (hs : F.served p.tiers size = some (c, G)) {length : Nat}
    (hl : length ≤ p.tiers.extent b.tier) (hl' : length ≤ size) (kept : Option Address) :
    ∃ m q, p.Acquires live size c G m ∧ relocate b size length kept p =
      .ok (some (p.tiers.offset c)) q ∧
      q.Sound ((insert c live).erase b) (G.coalesced b.tier b.index) ∧
      p.Keeps q (live.erase b) ∧ q.peak = m.peak ∧
      p.region.Carries (p.tiers.offset b) length (p.tiers.offset c) q.region := by
  obtain ⟨m, hm, ha⟩ := h.alloc_of_served hs
  have hsize := (Tiers.sizeClass_isLeast size).1.2
  have he := ha.extent_eq
  obtain ⟨q, hq, hrest⟩ := ha.sound.transfer_fresh ha.vacant ha.keeps hb length hl (by omega)
  refine ⟨m, q, ha, ?_, hrest⟩
  rw [relocate, Op.bind_ok _ hm]
  dsimp only
  rw [Op.bind_ok _ hq]
  rfl

/-- A live block moves to a larger one, or to a much smaller one if there is any. -/
theorem resize_eq (h : p.Sound live F) (hb : b ∈ live) (size : Nat) :
    resize (p.tiers.offset b) size p =
      (if p.tiers.extent b.tier < size then relocate b size (p.tiers.extent b.tier) none
      else if size ≤ p.tiers.extent b.tier / 2 ∧ leastBlock < p.tiers.extent b.tier then
        relocate b size size (some (p.tiers.offset b))
      else return some (p.tiers.offset b) : Op Buddy (Option Address)) p := by
  rw [resize, Op.get_bind, Op.lift_bind _ (Region.resolve_ok (h.offset_lt_size hb)),
    Op.get_bind, Op.lift_bind _ (h.liveAt_some hb)]
  dsimp only
  rw [Op.get_bind, Op.lift_bind _ (Tiers.width_ok h.wellFormed (h.live_holds b hb).1)]
  rfl

theorem resize_of_not_served (h : p.Sound live F) (hb : b ∈ live)
    (hlt : p.tiers.extent b.tier < size) (hs : F.served p.tiers size = none) :
    resize (p.tiers.offset b) size p = .ok none p := by
  rw [h.resize_eq hb, if_pos hlt]
  exact h.relocate_of_not_served hs _ _

theorem resize_of_fits (h : p.Sound live F) (hb : b ∈ live) (hle : size ≤ p.tiers.extent b.tier)
    (hm : p.tiers.Misfits b size → F.served p.tiers size = none) :
    resize (p.tiers.offset b) size p = .ok (some (p.tiers.offset b)) p := by
  rw [h.resize_eq hb, if_neg (Nat.not_lt_of_ge hle)]
  split
  next hshrink => exact h.relocate_of_not_served (hm (.inr hshrink)) _ _
  next => rfl

theorem resize_of_served (h : p.Sound live F) (hb : b ∈ live) (hm : p.tiers.Misfits b size)
    (hs : F.served p.tiers size = some (c, G)) :
    ∃ m q, p.Acquires live size c G m ∧
      resize (p.tiers.offset b) size p = .ok (some (p.tiers.offset c)) q ∧
      q.Sound ((insert c live).erase b) (G.coalesced b.tier b.index) ∧
      p.Keeps q (live.erase b) ∧ q.peak = m.peak ∧
      p.region.Carries (p.tiers.offset b) (min (p.tiers.extent b.tier) size) (p.tiers.offset c)
        q.region := by
  rw [h.resize_eq hb]
  by_cases hgrow : p.tiers.extent b.tier < size
  · rw [if_pos hgrow, Nat.min_eq_left (Nat.le_of_lt hgrow)]
    exact h.relocate_of_served hb hs (Nat.le_refl _) (Nat.le_of_lt hgrow) none
  · have hle := Nat.le_of_not_lt hgrow
    rw [if_neg hgrow, if_pos (hm.resolve_left hgrow), Nat.min_eq_right hle]
    exact h.relocate_of_served hb hs hle (Nat.le_refl _) _

/-- What a request for another size does to a live block: it fails, keeps its place or moves. -/
theorem resize_cases (h : p.Sound live F) (hb : b ∈ live) (size : Nat) :
    resize (p.tiers.offset b) size p = .ok none p ∨
    (resize (p.tiers.offset b) size p = .ok (some (p.tiers.offset b)) p ∧
      size ≤ p.tiers.extent b.tier) ∨
    ∃ c q G, resize (p.tiers.offset b) size p = .ok (some (p.tiers.offset c)) q ∧
      q.Sound ((insert c live).erase b) G ∧ c.Vacant live ∧ p.Keeps q (live.erase b) ∧
      p.tiers.extent c.tier = sizeClass size := by
  cases hs : F.served p.tiers size with
  | none =>
    by_cases hlt : p.tiers.extent b.tier < size
    · exact .inl (h.resize_of_not_served hb hlt hs)
    · have hle := Nat.le_of_not_lt hlt
      exact .inr (.inl ⟨h.resize_of_fits hb hle fun _ => hs, hle⟩)
  | some found =>
    by_cases hm : p.tiers.Misfits b size
    · obtain ⟨m, q, ha, hq, hsq, hk, -⟩ := h.resize_of_served hb hm hs
      exact .inr (.inr ⟨found.1, q, _, hq, hsq, ha.vacant, hk, ha.extent_eq⟩)
    · have hle := Nat.le_of_not_lt fun hlt => hm (.inl hlt)
      exact .inr (.inl ⟨h.resize_of_fits hb hle fun h => absurd h hm, hle⟩)

theorem resize_error (h : p.Sound live F) (ha : ∀ b ∈ live, p.tiers.offset b ≠ address)
    (size : Nat) : ∃ cause, resize address size p = .error cause p := by
  by_cases hs : address < p.region.size
  · rw [resize, Op.get_bind, Op.lift_bind _ (Region.resolve_ok hs), Op.get_bind,
      Op.lift_bind _ (h.liveAt_none ha)]
    exact ⟨_, rfl⟩
  · rw [resize, Op.get_bind, Op.lift_bind_error _ (Region.resolve_error (Nat.le_of_not_lt hs))]
    exact ⟨_, rfl⟩

/-- The bytes of a block may be zeroed right after it was handed out. -/
theorem acquires_clear (h : p.Acquires live size b G q) :
    p.Acquires live size b G (q.withRegion (q.region.clear (p.tiers.offset b) size)) := by
  have hb : b ∈ insert b live := Finset.mem_insert_self b live
  have hbl : b ∉ live := fun hbl => h.vacant b hbl (.refl b)
  have hr : ∀ o, ¬ (q.tiers.span b).Has o →
      (q.region.clear (p.tiers.offset b) size).byte o = q.region.byte o := by
    intro o ho
    rw [h.keeps.tiers] at ho
    exact (Region.byte_clear h.end_le o).trans (if_neg fun hso => ho (h.has_block hso))
  obtain ⟨hs, hk⟩ := h.sound.withRegion hb (Region.size_clear ..) hr
  rw [Finset.erase_insert hbl] at hk
  refine ⟨hs, h.vacant, h.keeps.trans hk, h.extent_eq, ?_⟩
  rw [peak_withRegion, used_withRegion, h.peak_eq]

theorem calloc_of_not_served (h : p.Sound live F) {count : Nat}
    (hs : F.served p.tiers (count * size) = none) :
    (Allocator.calloc count size : Op Buddy _) p = .ok none p := by
  have hc := Allocator.calloc_apply count size p
  have ha : (Allocator.alloc (count * size) : Op Buddy _) p = _ := h.alloc_of_not_served hs
  rw [ha, ite_self] at hc
  exact hc

/-- An array is allocated as a request for all of its bytes, which are zeroed. -/
theorem calloc_of_served (h : p.Sound live F) {count : Nat}
    (hs : F.served p.tiers (count * size) = some (b, G)) :
    ∃ q, (Allocator.calloc count size : Op Buddy _) p = .ok (some (p.tiers.offset b)) q ∧
      p.Acquires live (count * size) b G q := by
  have hc := Allocator.calloc_apply count size p
  obtain ⟨q, hq, ha⟩ := h.alloc_of_served hs
  have hq' : (Allocator.alloc (count * size) : Op Buddy _) p = _ := hq
  have hw : ¬ Word.bound ≤ count * size := by
    have hle := (Tiers.sizeClass_isLeast (count * size)).1.2
    have hcap := Tiers.capacity_lt h.wellFormed
    have hext := Tiers.extent_le_capacity h.wellFormed b.tier
    have he := ha.extent_eq
    omega
  rw [hq', if_neg hw] at hc
  refine ⟨_, ?_, acquires_clear ha⟩
  rw [hc]
  unfold Buddy.withRegion
  rfl

theorem calloc_cases (h : p.Sound live F) (count size : Nat) :
    (Allocator.calloc count size : Op Buddy _) p = .ok none p ∨
    ∃ b q G, (Allocator.calloc count size : Op Buddy _) p = .ok (some (p.tiers.offset b)) q ∧
      q.Sound (insert b live) G ∧ b.Vacant live ∧ p.Keeps q live ∧
      p.tiers.extent b.tier = sizeClass (count * size) := by
  cases hs : F.served p.tiers (count * size) with
  | none => exact .inl (h.calloc_of_not_served hs)
  | some found =>
    obtain ⟨q, hq, ha⟩ := h.calloc_of_served hs
    exact .inr ⟨found.1, q, found.2, hq, ha.sound, ha.vacant, ha.keeps, ha.extent_eq⟩

end Sound

end Buddy

end FixedPool
