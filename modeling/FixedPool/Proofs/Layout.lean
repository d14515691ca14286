import FixedPool.Layout
import FixedPool.Proofs.Buddy.Outcome
import FixedPool.Proofs.Contract

/-!
Memory that is asked for by layout and given back with the layout it was asked for with. Whoever
writes to nothing but such memory finds it aligned, apart from all other memory that is outstanding,
and with the bytes that were written to it, whichever pool it comes from.
-/

namespace FixedPool

/-- The layouts of the memory that is outstanding, by its address. -/
abbrev Lent := Address → Option Layout

/-- What is lent after an answer to a request for a layout. If the request is granted, what was lent
before is `old`. -/
def Lent.after (lent old : Lent) (l : Layout) : Option Address → Lent
  | none => lent
  | some a => Function.update old a (some l)

/-- The bytes of the memory at an address. -/
def Layout.span (l : Layout) (a : Address) : Span := ⟨a, l.size⟩

/-- The bytes of all that is lent stay as they are. -/
structure Spared (lent : Lent) (r r' : Region) : Prop where
  size_eq : r'.size = r.size
  byte : ∀ a l, lent a = some l → ∀ o, (l.span a).Has o → r'.byte o = r.byte o

variable {σ : Type} [Allocator σ]

/-- A layout that a pool is too loosely aligned for, or too full for, or that has no bytes. -/
def Layout.Refused (l : Layout) (s : σ) : Prop :=
  Allocator.alignment σ < l.align ∨ l.size = 0 ∨ ∃ n, Allocator.available s = .ok n ∧ n < l.size

/-- Memory for a layout at an address, apart from all that is lent. -/
structure Granted (l : Layout) (lent : Lent) (s : σ) (a : Address) (t : σ) : Prop where
  aligned : l.align ∣ a
  inside : a + l.size ≤ (Allocator.region t).size
  apart : ∀ b m, lent b = some m → (l.span a).Apart (m.span b)
  spared : Spared lent (Allocator.region s) (Allocator.region t)

/-- A step is refused memory for a layout and leaves the state as it is, or obtains it. -/
def Grants (x : Op σ (Option Address)) (l : Layout) (lent : Lent) (s : σ)
    (Filled : Address → σ → Prop) : Prop :=
  l.Refused s ∧ x s = .ok none s ∨
  ¬ l.Refused s ∧ ∃ a t, x s = .ok (some a) t ∧ Granted l lent s a t ∧ Filled a t

/-- What is lent is aligned, inside of the region and apart, and no check fails in a request for
memory, for another size of it, or in giving it back. -/
structure Allocates (s : σ) (lent : Lent) : Prop where
  aligned : ∀ a l, lent a = some l → l.align ∣ a
  inside : ∀ a l, lent a = some l → a + l.size ≤ (Allocator.region s).size
  apart : ∀ a b l m, lent a = some l → lent b = some m → a ≠ b → (l.span a).Apart (m.span b)
  available : ∃ n, Allocator.available s = .ok n
  alloc : ∀ l : Layout, Grants l.alloc l lent s fun _ _ => True
  allocZeroed : ∀ l : Layout, Grants l.allocZeroed l lent s fun a t =>
    ∀ o, (l.span a).Has o → (Allocator.region t).byte o = 0
  realloc : ∀ a l m, lent a = some l →
    Grants (Layout.realloc a l m) m (Function.update lent a none) s fun b t =>
      (Allocator.region s).Carries a (min l.size m.size) b (Allocator.region t)
  dealloc : ∀ a l, lent a = some l → ∃ t, Layout.dealloc (some a) l s = .ok () t ∧
    Spared (Function.update lent a none) (Allocator.region s) (Allocator.region t)

set_option autoImplicit true in
/-- The states that requests lead to, and what is lent then. Memory is given back with its layout,
and only memory that is lent is written to. -/
inductive Layout.Runs (s₀ : σ) : σ → Lent → Prop
  | start : Runs s₀ s₀ fun _ => none
  | allocated (l : Layout) : Runs s₀ s lent → l.alloc s = .ok result t →
      Runs s₀ t (lent.after lent l result)
  | zeroed (l : Layout) : Runs s₀ s lent → l.allocZeroed s = .ok result t →
      Runs s₀ t (lent.after lent l result)
  | resized (m : Layout) : Runs s₀ s lent → lent a = some l →
      Layout.realloc a l m s = .ok result t →
      Runs s₀ t (lent.after (Function.update lent a none) m result)
  | released : Runs s₀ s lent → lent a = some l → Layout.dealloc (some a) l s = .ok () t →
      Runs s₀ t (Function.update lent a none)
  | stored (v : UInt8) : Runs s₀ s lent → lent a = some l → (l.span a).Has o →
      Runs s₀ (Allocator.mapRegion (·.setByte o v) s) lent

/-- An invariant of a pool and of what is lent from it, under which plain requests lend more of it,
and releases less. -/
structure Lends (Inv : σ → Lent → Prop) : Prop where
  alignment : ∃ k, Allocator.alignment σ = 2 ^ k
  region_map : ∀ (f : Region → Region) (s : σ),
    Allocator.region (Allocator.mapRegion f s) = f (Allocator.region s)
  aligned : ∀ {s lent a l}, Inv s lent → lent a = some l → Allocator.alignment σ ∣ a
  inside : ∀ {s lent a l}, Inv s lent → lent a = some l → a + l.size ≤ (Allocator.region s).size
  apart : ∀ {s lent a b l m}, Inv s lent → lent a = some l → lent b = some m → a ≠ b →
    (l.span a).Apart (m.span b)
  exact : ∀ {s lent}, Inv s lent → Exact s
  declined : ∀ {s t lent size}, Inv s lent → Allocator.alloc size s = .ok none t → t = s
  served : ∀ {s t lent a l}, Inv s lent → Allocator.alloc l.size s = .ok (some a) t →
    lent a = none ∧ Inv t (Function.update lent a (some l)) ∧
    Spared lent (Allocator.region s) (Allocator.region t)
  released : ∀ {s lent a l}, Inv s lent → lent a = some l → ∀ hint, ∃ t,
    Allocator.dealloc a hint s = .ok () t ∧ Inv t (Function.update lent a none) ∧
    Spared (Function.update lent a none) (Allocator.region s) (Allocator.region t)
  written : ∀ {s lent a l} {f : Region → Region}, Inv s lent → lent a = some l →
    (f (Allocator.region s)).size = (Allocator.region s).size →
    (∀ o, ¬ (l.span a).Has o → (f (Allocator.region s)).byte o = (Allocator.region s).byte o) →
    Inv (Allocator.mapRegion f s) lent

variable {Inv : σ → Lent → Prop} {s t s₀ : σ} {lent old : Lent} {l m : Layout} {a b : Nat}
  {r r' r'' : Region} {x : Op σ (Option Address)} {Filled : Address → σ → Prop}

/-! ### Bytes that are lent -/

theorem Spared.trans (h : Spared lent r r') (h' : Spared lent r' r'') : Spared lent r r'' where
  size_eq := h'.size_eq.trans h.size_eq
  byte := fun a l ha o ho => (h'.byte a l ha o ho).trans (h.byte a l ha o ho)

theorem Spared.mono (h : Spared lent r r') (hl : ∀ a l, old a = some l → lent a = some l) :
    Spared old r r' :=
  ⟨h.size_eq, fun a l ha => h.byte a l (hl a l ha)⟩

theorem Lent.after_self (lent old : Lent) (l : Layout) (a : Nat) :
    lent.after old l (some a) a = some l :=
  Function.update_self ..

theorem lent_of_update {b : Address} (h : Function.update lent a none b = some m) :
    b ≠ a ∧ lent b = some m := by
  obtain rfl | hne := eq_or_ne b a
  · rw [Function.update_self] at h
    cases h
  · rw [Function.update_of_ne hne] at h
    exact ⟨hne, h⟩

namespace Lends

/-- Writing to memory that is lent spares all other. -/
theorem spared_of_written (hL : Lends Inv) (h : Inv s lent) (ha : lent a = some l)
    (hs : r.size = (Allocator.region s).size)
    (hr : ∀ o, ¬ (l.span a).Has o → r.byte o = (Allocator.region s).byte o) :
    Spared (Function.update lent a none) (Allocator.region s) r where
  size_eq := hs
  byte := by
    intro b m hb o ho
    obtain ⟨hne, hb⟩ := lent_of_update hb
    exact hr o ((hL.apart h hb ha hne).not_has ho)

theorem align_dvd (hL : Lends Inv) (h : ¬ Allocator.alignment σ < l.align) :
    l.align ∣ Allocator.alignment σ := by
  obtain ⟨k, hk⟩ := hL.alignment
  have hp : l.align = 2 ^ l.align.log2 := by
    rw [← Nat.one_shiftLeft]
    exact l.align_isPowerOfTwo
  rw [hk, Nat.not_lt, hp, Nat.pow_le_pow_iff_right (by decide)] at h
  rw [hk, hp]
  exact Nat.pow_dvd_pow 2 h

/-! ### Requests -/

/-- Memory for a layout was obtained, at an address where none was lent. -/
structure Obtained (Inv : σ → Lent → Prop) (l : Layout) (lent : Lent) (s : σ) (a : Address)
    (t : σ) : Prop where
  align_dvd : l.align ∣ Allocator.alignment σ
  vacant : lent a = none
  inv : Inv t (Function.update lent a (some l))
  spared : Spared lent (Allocator.region s) (Allocator.region t)

/-- A step is refused memory for a layout and leaves the state as it is, or obtains it and keeps the
invariant. -/
def Obtains (Inv : σ → Lent → Prop) (x : Op σ (Option Address)) (l : Layout) (lent : Lent) (s : σ)
    (Filled : Address → σ → Prop) : Prop :=
  l.Refused s ∧ x s = .ok none s ∨
  ¬ l.Refused s ∧ ∃ a t, x s = .ok (some a) t ∧ Obtained Inv l lent s a t ∧ Filled a t

namespace Obtained

theorem ne_of_lent (h : Obtained Inv l lent s a t) (hb : lent b = some m) : b ≠ a := by
  rintro rfl
  rw [h.vacant] at hb
  cases hb

theorem still_lent (h : Obtained Inv l lent s a t) (hb : lent b = some m) :
    Function.update lent a (some l) b = some m := by
  rw [Function.update_of_ne (h.ne_of_lent hb), hb]

theorem granted (hL : Lends Inv) (h : Obtained Inv l lent s a t) : Granted l lent s a t where
  aligned := h.align_dvd.trans (hL.aligned h.inv (Function.update_self ..))
  inside := hL.inside h.inv (Function.update_self ..)
  apart _ _ hb := hL.apart h.inv (Function.update_self ..) (h.still_lent hb) (h.ne_of_lent hb).symm
  spared := h.spared

end Obtained

theorem Obtains.grants (hL : Lends Inv) (h : Obtains Inv x l lent s Filled) :
    Grants x l lent s Filled := by
  obtain hr | ⟨hr, a, t, ha, ht, hf⟩ := h
  · exact .inl hr
  · exact .inr ⟨hr, a, t, ha, ht.granted hL, hf⟩

theorem alloc_obtains (hL : Lends Inv) (h : Inv s lent) (l : Layout) :
    Obtains Inv l.alloc l lent s fun _ _ => True := by
  by_cases hal : Allocator.alignment σ < l.align
  · left
    refine ⟨.inl hal, ?_⟩
    rw [Layout.alloc, if_pos hal]
    rfl
  have hrun : (l.alloc : Op σ _) = Allocator.alloc l.size := if_neg hal
  obtain ⟨n, hn, halloc⟩ := hL.exact h
  have href : l.Refused s ↔ ¬ (1 ≤ l.size ∧ l.size ≤ n) := by
    simp only [Layout.Refused, hal, hn, Except.ok.injEq, exists_eq_left', false_or]
    omega
  obtain ⟨result, t, ht, hsome⟩ := halloc l.size
  -- Past the alignment, a layout is refused exactly if the request for its bytes is declined.
  rw [Obtains, href, hrun, ← hsome]
  cases result with
  | none =>
    obtain rfl := hL.declined h ht
    exact .inl ⟨nofun, ht⟩
  | some a =>
    obtain ⟨hv, ht', hs⟩ := hL.served h ht
    exact .inr ⟨not_not_intro rfl, a, t, ht, ⟨hL.align_dvd hal, hv, ht', hs⟩, trivial⟩

namespace Obtained

/-- Memory that was just obtained may be written to. -/
theorem fill (hL : Lends Inv) (h : Obtained Inv l lent s a t) {f : Region → Region}
    (hs : (f (Allocator.region t)).size = (Allocator.region t).size)
    (hf : ∀ o, ¬ (l.span a).Has o →
      (f (Allocator.region t)).byte o = (Allocator.region t).byte o) :
    Obtained Inv l lent s a (Allocator.mapRegion f t) := by
  have ha : Function.update lent a (some l) a = some l := Function.update_self ..
  refine ⟨h.align_dvd, h.vacant, hL.written h.inv ha hs hf, ?_⟩
  rw [hL.region_map]
  apply h.spared.trans
  apply (hL.spared_of_written h.inv ha hs hf).mono
  rw [Function.update_idem, ← h.vacant, Function.update_eq_self]
  exact fun _ _ hb => hb

theorem clear (hL : Lends Inv) (h : Obtained Inv l lent s a t) :
    Obtained Inv l lent s a (Allocator.mapRegion (·.clear a l.size) t) ∧ ∀ o, (l.span a).Has o →
      (Allocator.region (Allocator.mapRegion (·.clear a l.size) t)).byte o = 0 := by
  have hin := (h.granted hL).inside
  constructor
  · refine h.fill hL (f := (·.clear a l.size)) (Region.size_clear ..) ?_
    intro o ho
    exact (Region.byte_clear hin o).trans (if_neg ho)
  · intro o ho
    rw [hL.region_map]
    exact (Region.byte_clear hin o).trans (if_pos ho)

/-- Memory that was just obtained may be given the bytes that other memory has. -/
theorem copy (hL : Lends Inv) (h : Obtained Inv m lent s b t) (ha : lent a = some l) :
    Obtained Inv m lent s b (Allocator.mapRegion (·.move a (min l.size m.size) b) t) ∧
    (Allocator.region s).Carries a (min l.size m.size) b
      (Allocator.region (Allocator.mapRegion (·.move a (min l.size m.size) b) t)) := by
  have hl := Nat.min_le_left l.size m.size
  have hm := Nat.min_le_right l.size m.size
  have hsource : a + min l.size m.size ≤ (Allocator.region t).size :=
    Nat.le_trans (Nat.add_le_add_left hl a) (hL.inside h.inv (h.still_lent ha))
  have htarget : b + min l.size m.size ≤ (Allocator.region t).size :=
    Nat.le_trans (Nat.add_le_add_left hm b) (h.granted hL).inside
  constructor
  · refine h.fill hL (f := (·.move a (min l.size m.size) b)) (Region.size_move ..) ?_
    intro o ho
    apply (Region.byte_move hsource htarget o).trans (if_neg ?_)
    rintro ⟨h₁, h₂⟩
    exact ho ⟨h₁, Nat.lt_of_lt_of_le h₂ (Nat.add_le_add_left hm b)⟩
  · rw [hL.region_map]
    apply (Region.carries_move hsource htarget).congr
    · intro i hi
      have ho : (l.span a).Has (a + i) :=
        ⟨Nat.le_add_right a i, Nat.add_lt_add_left (Nat.lt_of_lt_of_le hi hl) a⟩
      exact (h.spared.byte a l ha _ ho).symm
    · exact fun _ _ => rfl

/-- Other memory may be given back for that which was just obtained. -/
theorem release (hL : Lends Inv) (h : Obtained Inv m lent s b t) (ha : lent a = some l)
    (hint : Nat) :
    ∃ u, Allocator.dealloc a hint t = .ok () u ∧
      Obtained Inv m (Function.update lent a none) s b u ∧
      ∀ o, (m.span b).Has o → (Allocator.region u).byte o = (Allocator.region t).byte o := by
  have hne := h.ne_of_lent ha
  obtain ⟨u, hu, hu', hs⟩ := hL.released h.inv (h.still_lent ha) hint
  rw [Function.update_comm hne.symm] at hu' hs
  refine ⟨u, hu, ⟨h.align_dvd, ?_, hu', ?_⟩, hs.byte b m (Function.update_self ..)⟩
  · rw [Function.update_of_ne hne.symm, h.vacant]
  · apply (h.spared.mono fun c k hc => (lent_of_update hc).2).trans (hs.mono _)
    intro c k hc
    rw [Function.update_of_ne (h.ne_of_lent (lent_of_update hc).2), hc]

end Obtained

theorem allocZeroed_obtains (hL : Lends Inv) (h : Inv s lent) (l : Layout) :
    Obtains Inv l.allocZeroed l lent s fun a t =>
      ∀ o, (l.span a).Has o → (Allocator.region t).byte o = 0 := by
  obtain ⟨hr, ha⟩ | ⟨hr, a, t, ha, ht, -⟩ := hL.alloc_obtains h l
  · left
    refine ⟨hr, ?_⟩
    rw [Layout.allocZeroed, Op.bind_ok _ ha]
    rfl
  · right
    refine ⟨hr, a, _, ?_, ht.clear hL⟩
    rw [Layout.allocZeroed, Op.bind_ok _ ha]
    rfl

theorem realloc_obtains (hL : Lends Inv) (h : Inv s lent) (ha : lent a = some l) (m : Layout) :
    Obtains Inv (Layout.realloc a l m) m (Function.update lent a none) s fun b t =>
      (Allocator.region s).Carries a (min l.size m.size) b (Allocator.region t) := by
  obtain ⟨hr, hb⟩ | ⟨hr, b, t, hb, ht, -⟩ := hL.alloc_obtains h m
  · left
    refine ⟨hr, ?_⟩
    rw [Layout.realloc, Op.bind_ok _ hb]
    rfl
  · right
    -- The old memory is given back last, and that spares the bytes which were copied.
    obtain ⟨hcopied, hcarries⟩ := ht.copy hL ha
    obtain ⟨u, hu, hreleased, hbyte⟩ := hcopied.release hL ha l.size
    have hrun : Layout.dealloc (some a) l
        (Allocator.mapRegion (·.move a (min l.size m.size) b) t) = .ok () u := hu
    refine ⟨hr, b, u, ?_, hreleased, hcarries.congr (fun _ _ => rfl) ?_⟩
    · rw [Layout.realloc, Op.bind_ok _ hb]
      exact Op.bind_ok _ hrun
    · intro i hi
      have hm := Nat.lt_of_lt_of_le hi (Nat.min_le_right ..)
      exact hbyte _ ⟨Nat.le_add_right b i, Nat.add_lt_add_left hm b⟩

/-! ### Every run -/

/-- What holds in a state of a run: the invariant, and that the alignment of all that is lent
divides that of the pool. -/
structure Held (Inv : σ → Lent → Prop) (s₀ s : σ) (lent : Lent) : Prop where
  inv : Inv s lent
  size_eq : (Allocator.region s).size = (Allocator.region s₀).size
  align_dvd : ∀ a l, lent a = some l → l.align ∣ Allocator.alignment σ

theorem Held.after (h : Held Inv s₀ s lent) (hx : Obtains Inv x l old s Filled)
    (hold : ∀ a l, old a = some l → lent a = some l) {result : Option Address}
    (hrun : x s = .ok result t) : Held Inv s₀ t (lent.after old l result) := by
  obtain ⟨-, hn⟩ | ⟨-, a, u, ha, hu, -⟩ := hx
  · rw [hrun] at hn
    cases hn
    exact h
  · rw [hrun] at ha
    cases ha
    refine ⟨hu.inv, hu.spared.size_eq.trans h.size_eq, ?_⟩
    intro b m hb
    change Function.update old a (some l) b = some m at hb
    obtain rfl | hne := eq_or_ne b a
    · rw [Function.update_self] at hb
      cases hb
      exact hu.align_dvd
    · rw [Function.update_of_ne hne] at hb
      exact h.align_dvd b m (hold b m hb)

theorem held_of_runs (hL : Lends Inv) (h₀ : Inv s₀ fun _ => none) (h : Layout.Runs s₀ s lent) :
    Held Inv s₀ s lent := by
  induction h with
  | start => exact ⟨h₀, rfl, nofun⟩
  | allocated l _ hrun ih => exact ih.after (hL.alloc_obtains ih.inv l) (fun _ _ => id) hrun
  | zeroed l _ hrun ih => exact ih.after (hL.allocZeroed_obtains ih.inv l) (fun _ _ => id) hrun
  | resized m _ ha hrun ih =>
    exact ih.after (hL.realloc_obtains ih.inv ha m) (fun _ _ hb => (lent_of_update hb).2) hrun
  | @released s lent a l t _ ha hrun ih =>
    obtain ⟨u, hu, hu', hs⟩ := hL.released ih.inv ha l.size
    have hrun' : Allocator.dealloc a l.size s = .ok () t := hrun
    rw [hrun'] at hu
    cases hu
    exact ⟨hu', hs.size_eq.trans ih.size_eq, fun b m hb =>
      ih.align_dvd b m (lent_of_update hb).2⟩
  | stored v _ ha ho ih =>
    refine ⟨hL.written ih.inv ha (Region.size_setByte ..) ?_, ?_, ih.align_dvd⟩
    · intro i hi
      exact Region.byte_setByte_ne _ v fun he => hi (he ▸ ho)
    · rw [hL.region_map, Region.size_setByte, ih.size_eq]

theorem Held.allocates (hL : Lends Inv) (h : Held Inv s₀ s lent) : Allocates s lent where
  aligned a l ha := (h.align_dvd a l ha).trans (hL.aligned h.inv ha)
  inside _ _ ha := hL.inside h.inv ha
  apart _ _ _ _ ha hb hne := hL.apart h.inv ha hb hne
  available := by
    obtain ⟨n, hn, -⟩ := hL.exact h.inv
    exact ⟨n, hn⟩
  alloc l := (hL.alloc_obtains h.inv l).grants hL
  allocZeroed l := (hL.allocZeroed_obtains h.inv l).grants hL
  realloc _ _ m ha := (hL.realloc_obtains h.inv ha m).grants hL
  dealloc _ l ha := by
    obtain ⟨t, ht, -, hs⟩ := hL.released h.inv ha l.size
    exact ⟨t, ht, hs⟩

end Lends

/-! ### Buddy pools -/

namespace Buddy

/-- What is lent begins where a live block does, and is no longer than that block. -/
structure Occupied (p : Buddy) (lent : Lent) (live : Finset Block) (F : FreeLists) : Prop
    extends p.Sound live F where
  block_of : ∀ a l, lent a = some l → ∃ b ∈ live, p.tiers.offset b = a ∧
    l.size ≤ p.tiers.extent b.tier
  lent_of : ∀ b ∈ live, ∃ l, lent (p.tiers.offset b) = some l

namespace Occupied

variable {p q : Buddy} {lent : Lent} {live : Finset Block} {F G : FreeLists} {b : Block}
  {l : Layout}

theorem span_inside (hle : l.size ≤ p.tiers.extent b.tier) :
    (l.span (p.tiers.offset b)).Inside (p.tiers.span b) :=
  ⟨Nat.le_refl _, Nat.add_le_add_left hle _⟩

theorem spared_of_keeps (hl : ∀ a l, lent a = some l → ∃ b ∈ live, p.tiers.offset b = a ∧
    l.size ≤ p.tiers.extent b.tier) (hk : p.Keeps q live) : Spared lent p.region q.region where
  size_eq := hk.size
  byte := by
    intro a l ha o ho
    obtain ⟨b, hb, rfl, hle⟩ := hl a l ha
    exact hk.byte b hb o ⟨ho.1, Nat.lt_of_lt_of_le ho.2 (span_inside hle).2⟩

theorem acquire (h : p.Occupied lent live F) (ha : p.Acquires live l.size b G q) :
    q.Occupied (Function.update lent (p.tiers.offset b) (some l)) (insert b live) G where
  toSound := ha.sound
  block_of := by
    intro a m hm
    rw [ha.keeps.tiers]
    obtain rfl | hne := eq_or_ne a (p.tiers.offset b)
    · rw [Function.update_self] at hm
      cases hm
      refine ⟨b, Finset.mem_insert_self b live, rfl, ?_⟩
      rw [ha.extent_eq]
      exact (Tiers.sizeClass_isLeast l.size).1.2
    · rw [Function.update_of_ne hne] at hm
      obtain ⟨c, hc, hrest⟩ := h.block_of a m hm
      exact ⟨c, Finset.mem_insert_of_mem hc, hrest⟩
  lent_of := by
    intro c hc
    rw [ha.keeps.tiers]
    obtain rfl | hc := Finset.mem_insert.1 hc
    · exact ⟨l, Function.update_self ..⟩
    · rw [Function.update_of_ne (ha.offset_ne hc).symm]
      exact h.lent_of c hc

theorem block_of_erase (h : p.Occupied lent live F) {a : Address} {m : Layout}
    (hm : Function.update lent (p.tiers.offset b) none a = some m) :
    ∃ c ∈ live.erase b, p.tiers.offset c = a ∧ m.size ≤ p.tiers.extent c.tier := by
  obtain ⟨hne, hm⟩ := lent_of_update hm
  obtain ⟨c, hc, rfl, hle⟩ := h.block_of a m hm
  exact ⟨c, Finset.mem_erase.2 ⟨fun he => hne (he ▸ rfl), hc⟩, rfl, hle⟩

theorem erase (h : p.Occupied lent live F) (hb : b ∈ live) (hq : q.Sound (live.erase b) G)
    (ht : q.tiers = p.tiers) :
    q.Occupied (Function.update lent (p.tiers.offset b) none) (live.erase b) G where
  toSound := hq
  block_of := by
    intro a m hm
    rw [ht]
    exact h.block_of_erase hm
  lent_of := by
    intro c hc
    obtain ⟨hne, hc⟩ := Finset.mem_erase.1 hc
    rw [ht, Function.update_of_ne fun ho => hne (h.eq_of_offset hc hb ho)]
    exact h.lent_of c hc

theorem whole (h : p.Occupied (fun _ => none) live F) : p.Whole := by
  have hlive : live = ∅ := by
    rw [Finset.eq_empty_iff_forall_notMem]
    intro b hb
    obtain ⟨l, hl⟩ := h.lent_of b hb
    cases hl
  subst hlive
  exact h.toSound.whole

end Occupied

theorem lends : Lends fun (p : Buddy) lent => ∃ live F, p.Occupied lent live F where
  alignment := ⟨4, rfl⟩
  region_map := fun _ _ => rfl
  aligned := by
    rintro p lent a l ⟨live, F, h⟩ ha
    obtain ⟨b, -, rfl, -⟩ := h.block_of a l ha
    exact Dvd.dvd.mul_left (p.tiers.leastBlock_dvd_extent b.tier) b.index
  inside := by
    rintro p lent a l ⟨live, F, h⟩ ha
    obtain ⟨b, hb, rfl, hle⟩ := h.block_of a l ha
    have hend := (h.live_holds b hb).end_le h.wellFormed
    change p.tiers.offset b + l.size ≤ p.region.size
    rw [h.size_eq]
    exact Nat.le_trans (Nat.add_le_add_left hle _) hend
  apart := by
    rintro p lent a a' l m ⟨live, F, h⟩ ha ha' hne
    obtain ⟨b, hb, rfl, hle⟩ := h.block_of a l ha
    obtain ⟨c, hc, rfl, hle'⟩ := h.block_of a' m ha'
    have hbc : (p.tiers.span b).Apart (p.tiers.span c) :=
      Tiers.apart_of_not_meets (h.live_holds b hb).1 (h.live_holds c hc).1
        fun hm => hne (h.meets_eq hb hc hm ▸ rfl)
    exact hbc.imp (Nat.le_trans (Occupied.span_inside hle).2)
      (Nat.le_trans (Occupied.span_inside hle').2)
  exact := by
    rintro p lent ⟨live, F, h⟩
    exact h.exact
  declined := by
    rintro p q lent size ⟨live, F, h⟩ hrun
    change Buddy.alloc size p = _ at hrun
    cases hs : F.served p.tiers size with
    | none =>
      rw [h.alloc_of_not_served hs] at hrun
      cases hrun
      rfl
    | some found =>
      obtain ⟨q, hq, -⟩ := h.alloc_of_served hs
      rw [hq] at hrun
      cases hrun
  served := by
    rintro p q lent a l ⟨live, F, h⟩ hrun
    change Buddy.alloc l.size p = _ at hrun
    cases hs : F.served p.tiers l.size with
    | none =>
      rw [h.alloc_of_not_served hs] at hrun
      cases hrun
    | some found =>
      obtain ⟨q, hq, ha⟩ := h.alloc_of_served hs
      rw [hq] at hrun
      cases hrun
      refine ⟨?_, ⟨_, _, h.acquire ha⟩, Occupied.spared_of_keeps h.block_of ha.keeps⟩
      cases hm : lent (p.tiers.offset found.1) with
      | none => rfl
      | some m =>
        obtain ⟨c, hc, ho, -⟩ := h.block_of _ m hm
        exact absurd ho.symm (ha.offset_ne hc)
  released := by
    rintro p lent a l ⟨live, F, h⟩ ha hint
    obtain ⟨b, hb, rfl, -⟩ := h.block_of a l ha
    obtain ⟨q, G, hq, hs, hk⟩ := h.free_ok hb
    exact ⟨q, (h.dealloc_eq hb hint).trans hq, ⟨_, G, h.erase hb hs hk.tiers⟩,
      Occupied.spared_of_keeps (fun _ _ hm => h.block_of_erase hm) hk⟩
  written := by
    rintro p lent a l f ⟨live, F, h⟩ ha hs hf
    obtain ⟨b, hb, rfl, hle⟩ := h.block_of a l ha
    obtain ⟨hw, -⟩ := h.withRegion hb hs fun o ho => hf o fun ho' =>
      ho ⟨ho'.1, Nat.lt_of_lt_of_le ho'.2 (Occupied.span_inside hle).2⟩
    unfold Buddy.withRegion at hw
    exact ⟨live, F, hw, h.block_of, h.lent_of⟩

end Buddy

/-! ### Linear pools -/

namespace Linear

/-- What is lent are the payloads of the cells that were not released. -/
structure Occupied (p : Linear) (lent : Lent) (leases : Leases) (cells : List Nat) : Prop
    extends p.Chained leases cells where
  trim : p.Trim leases
  dvd_size : 8 ∣ p.region.size
  cell_of : ∀ (a : Nat) l, lent a = some l →
    ∃ cell, a = cell + 8 ∧ leases cell = some ⟨l.size, false⟩
  lent_of : ∀ (cell n : Nat), leases cell = some ⟨n, false⟩ → ∃ l, lent (cell + 8) = some l

namespace Occupied

variable {p q : Linear} {lent : Lent} {leases leases' : Leases} {cells : List Nat} {l : Layout}
  {a cell n : Nat}

theorem vacant (h : p.Occupied lent leases cells) : lent (p.cursor + 8) = none := by
  cases hm : lent (p.cursor + 8) with
  | none => rfl
  | some m =>
    obtain ⟨cell, ha, hl⟩ := h.cell_of _ m hm
    have hlt := h.chain.lt_of_mem (h.mem_of_leased cell m.size hl)
    omega

theorem acquire (h : p.Occupied lent leases cells) (hf : p.Fits l.size) :
    ∃ cells, (p.withCell l.size).Occupied (Function.update lent (p.cursor + 8) (some l))
      (leases.acquire p.cursor l.size) cells := by
  have hy := h.yields_withCell hf none
  obtain ⟨cells', hc⟩ := hy.chained
  refine ⟨cells', hc, hy.trim h.trim, ?_, ?_, ?_⟩
  · rw [hy.size]
    exact h.dvd_size
  · intro a m hm
    obtain rfl | hne := eq_or_ne a (p.cursor + 8)
    · rw [Function.update_self] at hm
      cases hm
      exact ⟨p.cursor, rfl, leases.acquire_self p.cursor l.size⟩
    · rw [Function.update_of_ne hne] at hm
      obtain ⟨cell, rfl, hl⟩ := h.cell_of a m hm
      refine ⟨cell, rfl, ?_⟩
      rw [leases.acquire_of_ne l.size (by omega), hl]
  · intro cell n hl
    obtain rfl | hne := eq_or_ne cell p.cursor
    · exact ⟨l, Function.update_self ..⟩
    · rw [leases.acquire_of_ne l.size hne] at hl
      rw [Function.update_of_ne fun he => hne (Nat.add_right_cancel he)]
      exact h.lent_of cell n hl

theorem held (h : p.Occupied lent leases cells) (ha : lent a = some l) : leases.Held a := by
  obtain ⟨cell, rfl, hl⟩ := h.cell_of a l ha
  exact ⟨cell, l.size, hl, rfl⟩

theorem release (h : p.Occupied lent leases cells)
    (hy : p.Yields leases (some a) q (leases.release a)) :
    ∃ cells, q.Occupied (Function.update lent a none) (leases.release a) cells := by
  obtain ⟨cells', hc⟩ := hy.chained
  refine ⟨cells', hc, hy.trim h.trim, ?_, ?_, ?_⟩
  · rw [hy.size]
    exact h.dvd_size
  · intro b m hm
    obtain ⟨hne, hm⟩ := lent_of_update hm
    obtain ⟨cell, rfl, hl⟩ := h.cell_of b m hm
    refine ⟨cell, rfl, ?_⟩
    rw [leases.release_of_ne hne, hl]
  · intro cell n hl
    have hne : cell + 8 ≠ a := by
      rintro rfl
      rw [Leases.release, if_pos rfl] at hl
      obtain ⟨lease, -, he⟩ := Option.map_eq_some_iff.1 hl
      cases he
    rw [Function.update_of_ne hne]
    exact h.lent_of cell n (Leases.release_eq_live hl)

theorem empty (h : p.Occupied (fun _ => none) leases cells) : p.cursor = 0 ∧ p.top = 0 := by
  apply (h.reclaimed h.trim).of_none
  intro cell n hl
  obtain ⟨l, he⟩ := h.lent_of cell n hl
  cases he

/-- A step that changes no byte below the cursor but those of one header spares what is lent. -/
theorem spared (h : p.Occupied lent leases cells) {pointer : Option Address}
    (hy : p.Yields leases pointer q leases') (hp : ∀ a, pointer = some a → leases.Held a) :
    Spared lent p.region q.region where
  size_eq := hy.size
  byte := by
    intro a l ha o ho
    obtain ⟨cell, rfl, hl⟩ := h.cell_of a l ha
    have hlt := (h.separated.inside cell l.size hl).2
    exact hy.byte o (Nat.lt_of_lt_of_le ho.2 hlt) fun b hb => h.payload_outside hl ho (hp b hb)

end Occupied

theorem lends : Lends fun (p : Linear) lent => ∃ leases cells, p.Occupied lent leases cells where
  alignment := ⟨3, rfl⟩
  region_map := fun _ _ => rfl
  aligned := by
    rintro p lent a l ⟨leases, cells, h⟩ ha
    obtain ⟨cell, rfl, hl⟩ := h.cell_of a l ha
    exact h.separated.aligned cell l.size hl
  inside := by
    rintro p lent a l ⟨leases, cells, h⟩ ha
    obtain ⟨cell, rfl, hl⟩ := h.cell_of a l ha
    exact Nat.le_trans (h.separated.inside cell l.size hl).2 h.cursor_le
  apart := by
    rintro p lent a b l m ⟨leases, cells, h⟩ ha hb hne
    obtain ⟨c, rfl, hc⟩ := h.cell_of a l ha
    obtain ⟨d, rfl, hd⟩ := h.cell_of b m hb
    exact h.separated.apart c d l.size m.size hc hd fun he => hne (he ▸ rfl)
  exact := by
    rintro p lent ⟨leases, cells, h⟩
    exact h.exact h.dvd_size
  declined := by
    rintro p q lent size ⟨leases, cells, h⟩ hrun
    change Linear.alloc size p = _ at hrun
    obtain ha | ⟨-, ha⟩ := h.alloc_cases size
    · rw [ha] at hrun
      cases hrun
      rfl
    · rw [ha] at hrun
      cases hrun
  served := by
    rintro p q lent a l ⟨leases, cells, h⟩ hrun
    change Linear.alloc l.size p = _ at hrun
    obtain ha | ⟨hf, ha⟩ := h.alloc_cases l.size
    · rw [ha] at hrun
      cases hrun
    · rw [ha] at hrun
      cases hrun
      exact ⟨h.vacant, ⟨_, h.acquire hf⟩, h.spared (h.yields_withCell hf none) nofun⟩
  released := by
    rintro p lent a l ⟨leases, cells, h⟩ ha hint
    obtain ⟨q, hq⟩ := h.free_held h.trim (h.held ha)
    have hy := h.yields_free hq
    refine ⟨q, hq, ⟨_, h.release hy⟩, (h.spared hy ?_).mono fun b m hb => (lent_of_update hb).2⟩
    rintro _ ⟨⟩
    exact h.held ha
  written := by
    rintro p lent a l f ⟨leases, cells, h⟩ ha hs hf
    obtain ⟨cell, rfl, hl⟩ := h.cell_of a l ha
    refine ⟨leases, cells, h.of_region hs ?_, ⟨h.trim.top_held, h.trim.size_ne_zero⟩, ?_,
      h.cell_of, h.lent_of⟩
    · intro c hc i hi hi'
      apply hf
      rintro ⟨ho, ho'⟩
      have hx := cellExtent_ge l.size
      have hi'' : i < cell + cellExtent l.size := by
        change i < cell + 8 + l.size at ho'
        omega
      have hapart := h.payload_apart hl ho hi'' hc
      omega
    · exact hs ▸ h.dvd_size

end Linear

/-! ### Either pool -/

/-- No bytes are in use, and as many are available as there were at the start. -/
structure Restored (s₀ s : σ) : Prop where
  used : Allocator.used s = 0
  available : Allocator.available s = Allocator.available s₀
  capacity : Allocator.capacity s = Allocator.capacity s₀

theorem Buddy.allocates_runs {host : Host} {request : Nat} {p₀ p : Buddy} {lent : Lent}
    (h₀ : Buddy.create host request = .ok p₀) (h : Layout.Runs p₀ p lent) :
    Allocates p lent ∧ ((∀ a, lent a = none) → p.Whole ∧ Restored p₀ p) := by
  obtain ⟨F, hs, -⟩ := Buddy.sound_of_create h₀
  have hp₀ : p₀.Occupied (fun _ => none) ∅ F := ⟨hs, nofun, nofun⟩
  have hheld := Buddy.lends.held_of_runs ⟨∅, F, hp₀⟩ h
  refine ⟨hheld.allocates Buddy.lends, ?_⟩
  intro hnone
  obtain rfl : lent = fun _ => none := funext hnone
  obtain ⟨live, G, hp⟩ := hheld.inv
  have hcap : p.tiers.capacity = p₀.tiers.capacity := by
    rw [← hp.size_eq, ← hs.size_eq]
    exact hheld.size_eq
  refine ⟨hp.whole, hp.whole.used, ?_, hcap⟩
  exact hp.whole.available.trans (hcap ▸ hp₀.whole.available.symm)

theorem Linear.allocates_runs {host : Host} {request : Nat} {p₀ p : Linear} {lent : Lent}
    (h₀ : Linear.create host request = .ok p₀) (h : Layout.Runs p₀ p lent) :
    Allocates p lent ∧ ((∀ a, lent a = none) → p.top = 0 ∧ Restored p₀ p) := by
  obtain ⟨hd, hc, -⟩ := Linear.chained_of_create h₀
  have hp₀ : p₀.Occupied (fun _ => none) (fun _ => none) [] :=
    ⟨hc, (Linear.Reachable.created h₀).trim, hd, nofun, nofun⟩
  have hheld := Linear.lends.held_of_runs ⟨_, [], hp₀⟩ h
  refine ⟨hheld.allocates Linear.lends, ?_⟩
  intro hnone
  obtain rfl : lent = fun _ => none := funext hnone
  obtain ⟨leases, cells, hp⟩ := hheld.inv
  refine ⟨hp.empty.2, hp.empty.1, ?_, hheld.size_eq⟩
  refine hp.available_ok.trans (Eq.trans ?_ hc.available_ok.symm)
  rw [hp.empty.1, hp₀.empty.1]
  exact congrArg (fun n => Except.ok (n - _)) hheld.size_eq

theorem allocates_layouts (host : Host) (request : Nat) :
    (∀ p₀ p lent, Buddy.create host request = .ok p₀ → Layout.Runs p₀ p lent →
      Allocates p lent ∧ ((∀ a, lent a = none) → p.Whole ∧ Restored p₀ p)) ∧
    ∀ p₀ p lent, Linear.create host request = .ok p₀ → Layout.Runs p₀ p lent →
      Allocates p lent ∧ ((∀ a, lent a = none) → p.top = 0 ∧ Restored p₀ p) :=
  ⟨fun _ _ _ => Buddy.allocates_runs, fun _ _ _ => Linear.allocates_runs⟩

/-- Memory of 10 bytes out of 64 is resized to 20 bytes and then given back. -/
theorem allocates_layouts_resized :
    (∃ p₀ p q lent m, Buddy.create ⟨fun _ => true⟩ 64 = .ok p₀ ∧ Layout.Runs p₀ p lent ∧
      lent 32 = some m ∧ m.size = 20 ∧ Allocates p lent ∧
      Layout.dealloc (some 32) m p = .ok () q ∧ q.Whole ∧ Restored p₀ q) ∧
    ∃ p₀ p q lent m, Linear.create ⟨fun _ => true⟩ 64 = .ok p₀ ∧ Layout.Runs p₀ p lent ∧
      lent 32 = some m ∧ m.size = 20 ∧ Allocates p lent ∧
      Layout.dealloc (some 32) m p = .ok () q ∧ q.top = 0 ∧ Restored p₀ q := by
  obtain ⟨hbuddy, hlinear⟩ := allocates_layouts ⟨fun _ => true⟩ 64
  let l : Layout := ⟨10, 8, by decide, by decide⟩
  let m : Layout := ⟨20, 8, by decide, by decide⟩
  have hnone (a₀ : Address) : ∀ a, Function.update (Function.update (Function.update
      (Function.update (fun _ => none) a₀ (some l)) a₀ none) 32 (some m)) 32 none a = none := by
    intro a
    simp only [Function.update_apply]
    split_ifs <;> rfl
  constructor
  · have hrun : ∃ p₀ q, Buddy.create ⟨fun _ => true⟩ 64 = .ok p₀ ∧
        (do return (← l.alloc, ← Layout.realloc 0 l m, ← Layout.dealloc (some 32) m) :
          Op Buddy (Option Address × Option Address × Unit)) p₀ = .ok (some 0, some 32, ()) q :=
      Op.exists_of_answerFrom (by decide +kernel)
    obtain ⟨p₀, q, hp₀, hq⟩ := hrun
    simp only [Op.bind_eq_ok, Op.pure_apply, EStateM.Result.ok.injEq, Prod.mk.injEq] at hq
    obtain ⟨_, p, hp, _, t, ht, _, q, hq, ⟨rfl, rfl, -⟩, rfl⟩ := hq
    have r₁ := (Layout.Runs.start.allocated l hp).resized m (Lent.after_self ..) ht
    have r₂ := r₁.released (Lent.after_self ..) hq
    exact ⟨p₀, t, q, _, m, hp₀, r₁, Lent.after_self .., rfl, (hbuddy _ _ _ hp₀ r₁).1, hq,
      (hbuddy _ _ _ hp₀ r₂).2 (hnone 0)⟩
  · have hrun : ∃ p₀ q, Linear.create ⟨fun _ => true⟩ 64 = .ok p₀ ∧
        (do return (← l.alloc, ← Layout.realloc 8 l m, ← Layout.dealloc (some 32) m) :
          Op Linear (Option Address × Option Address × Unit)) p₀ = .ok (some 8, some 32, ()) q :=
      Op.exists_of_answerFrom (by decide +kernel)
    obtain ⟨p₀, q, hp₀, hq⟩ := hrun
    simp only [Op.bind_eq_ok, Op.pure_apply, EStateM.Result.ok.injEq, Prod.mk.injEq] at hq
    obtain ⟨_, p, hp, _, t, ht, _, q, hq, ⟨rfl, rfl, -⟩, rfl⟩ := hq
    have r₁ := (Layout.Runs.start.allocated l hp).resized m (Lent.after_self ..) ht
    have r₂ := r₁.released (Lent.after_self ..) hq
    exact ⟨p₀, t, q, _, m, hp₀, r₁, Lent.after_self .., rfl, (hlinear _ _ _ hp₀ r₁).1, hq,
      (hlinear _ _ _ hp₀ r₂).2 (hnone 8)⟩

end FixedPool
