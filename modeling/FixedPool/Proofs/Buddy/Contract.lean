import FixedPool.Proofs.Buddy.Run

/-!
What a caller can rely on in every run of a buddy pool: the held ranges and the free blocks tile the
region, calls on held addresses are served without harm to what is held, a request fails only if what
is held leaves no place for it, and calls on any other address are refused and change nothing.
-/

namespace FixedPool.Buddy

variable {p q : Buddy} {live : Finset Block} {held : Finset Span} {F : FreeLists} {b : Block}
  {host : Host} {request : Nat}

/-! ### The ranges of blocks -/

namespace Represents

theorem vacant_iff (h : p.Represents live F) (hb : p.tiers.Holds b) :
    b.Vacant live ↔ ∀ s ∈ p.spans live, s.Apart (p.tiers.span b) := by
  constructor
  · intro hv s hs
    obtain ⟨l, hl, rfl⟩ := mem_spans.1 hs
    exact (Tiers.apart_of_not_meets hb.1 (h.live_holds l hl).1 (hv l hl)).symm
  · intro hs l hl hm
    exact (Tiers.not_apart_iff hb.1 (h.live_holds l hl).1).2 hm
      (hs _ (mem_spans.2 ⟨l, hl, rfl⟩)).symm

theorem fresh_spans (h : p.Represents live F) (hb : p.tiers.Holds b) (hv : b.Vacant live) :
    ∀ s ∈ p.spans live, s.start ≠ p.tiers.offset b ∧ s.Apart (p.tiers.span b) := by
  intro s hs
  refine ⟨?_, (h.vacant_iff hb).1 hv s hs⟩
  obtain ⟨l, hl, rfl⟩ := mem_spans.1 hs
  exact h.offset_ne_of_vacant hb.1 hv hl

theorem inUse_iff (h : p.Represents live F) (hb : p.tiers.Holds b) :
    b.InUse live ↔ ∃ s ∈ p.spans live, s.Inside (p.tiers.span b) := by
  constructor
  · rintro ⟨l, hl, hw⟩
    exact ⟨_, mem_spans.2 ⟨l, hl, rfl⟩, (Tiers.inside_iff (h.live_holds l hl).1 hb.1).2 hw⟩
  · rintro ⟨s, hs, hi⟩
    obtain ⟨l, hl, rfl⟩ := mem_spans.1 hs
    exact ⟨l, hl, (Tiers.inside_iff (h.live_holds l hl).1 hb.1).1 hi⟩

theorem exists_has (h : p.Represents live F) {o : Nat} (ho : o < p.tiers.capacity) :
    (∃ l ∈ live, (p.tiers.span l).Has o) ∨ ∃ f, F.Lists f ∧ (p.tiers.span f).Has o := by
  have hpos := h.wellFormed.count_pos
  have hlast : p.tiers.count - 1 < p.tiers.count := Nat.sub_lt hpos Nat.one_pos
  let c : Block := ⟨p.tiers.count - 1, o / p.tiers.extent (p.tiers.count - 1)⟩
  obtain ⟨hc, hco⟩ := Tiers.exists_holds_has h.wellFormed hlast ho
  by_cases hv : c.Vacant live
  · obtain ⟨f, hf, hw⟩ := hv.exists_free
    exact .inr ⟨f, (h.lists_iff f (hc.within hw)).2 hf, Tiers.has_of_within hw hlast hco⟩
  · rw [Block.Vacant] at hv
    push Not at hv
    obtain ⟨l, hl, hw | hw⟩ := hv
    · exact .inl ⟨l, hl, Tiers.has_of_within hw hlast hco⟩
    · -- A live block within a smallest block is that block.
      have hlt := (h.live_holds l hl).1
      have hle := hw.1
      have he : l = c := hw.eq_of_tier (Nat.le_antisymm (Nat.le_sub_one_of_lt hlt) hle)
      exact .inl ⟨l, hl, he ▸ hco⟩

end Represents

/-! ### Consistent states -/

/-- Following the links behind leads from one block of a tier over all the listed ones, of which each
names the one that was visited before. -/
def Visits (p : Buddy) (tier : Nat) : Option Nat → Option Nat → List Nat → Prop
  | _, next, [] => next = none
  | before, next, index :: rest => next = some index ∧
    ∃ behind, p.links ⟨tier, index⟩ = .ok (before, behind) ∧
      p.Visits tier (some index) behind rest

theorem Shaped.visits (h : p.Shaped) {tier : Nat} {before : Option Nat} {xs : List Nat}
    (ht : Threaded (fun i => p.linkAt ⟨tier, i⟩) before none xs)
    (hx : ∀ i ∈ xs, p.tiers.Holds ⟨tier, i⟩) : p.Visits tier before xs.head? xs := by
  induction xs generalizing before with
  | nil => rfl
  | cons i xs ih =>
    obtain ⟨hi, hxs⟩ := ht
    rw [Option.or_none] at hi
    refine ⟨rfl, xs.head?, ?_, ih hxs fun j hj => hx j (List.mem_cons_of_mem i hj)⟩
    exact (h.links_ok (hx i List.mem_cons_self)).trans (congrArg Except.ok hi)

/-- The links of a tier lead from its list head over these blocks, in this order. -/
def HasFreeList (p : Buddy) (tier : Nat) (xs : List Nat) : Prop :=
  ∃ first, p.head tier = .ok first ∧ p.Visits tier none first xs

theorem Threads.hasFreeList (h : p.Threads F) {tier : Nat} (ht : tier < p.tiers.count) :
    p.HasFreeList tier (F tier) :=
  ⟨_, h.head_ok ht (h.head tier ht),
    h.toShaped.visits (h.thread tier) fun i hi => h.holds ⟨tier, i⟩ hi⟩

/-- No held range has bytes in common with the block. -/
def Unused (p : Buddy) (held : Finset Span) (b : Block) : Prop :=
  ∀ s ∈ held, s.Apart (p.tiers.span b)

/-- The held ranges and the listed blocks tile the region, the lists visit exactly the largest unused
blocks, and a block is marked exactly if a held range lies in it. -/
structure Consistent (p : Buddy) (held : Finset Span) (F : FreeLists) : Prop where
  wellFormed : p.tiers.WellFormed
  size_eq : p.region.size = p.tiers.capacity
  covered : ∀ o < p.tiers.capacity,
    (∃ s ∈ held, s.Has o) ∨ ∃ b, F.Lists b ∧ (p.tiers.span b).Has o
  held_inside : ∀ s ∈ held, s.start + s.size ≤ p.tiers.capacity
  listed_inside : ∀ b, F.Lists b → p.tiers.Holds b ∧
    p.tiers.offset b + p.tiers.extent b.tier ≤ p.tiers.capacity
  held_apart : ∀ s ∈ held, ∀ t ∈ held, s ≠ t → s.Apart t
  listed_apart : ∀ a b, F.Lists a → F.Lists b → a ≠ b → (p.tiers.span a).Apart (p.tiers.span b)
  apart : ∀ s ∈ held, ∀ b, F.Lists b → s.Apart (p.tiers.span b)
  visits : ∀ tier < p.tiers.count, (F tier).Nodup ∧
    ∃ first, p.head tier = .ok first ∧ p.Visits tier none first (F tier)
  lists_iff : ∀ b, p.tiers.Holds b →
    (F.Lists b ↔ p.Unused held b ∧ (0 < b.tier → ¬ p.Unused held b.up))
  marked_iff : ∀ b, p.tiers.Holds b →
    p.isMarked b = .ok (decide (∃ s ∈ held, s.Inside (p.tiers.span b)))
  not_both_free : ∀ b, 0 < b.tier → F.Lists b → ¬ F.Lists b.buddy
  used_eq : p.used = ∑ s ∈ held, s.size

theorem Sound.consistent_spans (h : p.Sound live F) : p.Consistent (p.spans live) F where
  wellFormed := h.wellFormed
  size_eq := h.size_eq
  covered := by
    intro o ho
    obtain ⟨l, hl, hlo⟩ | hf := h.exists_has ho
    · exact .inl ⟨_, mem_spans.2 ⟨l, hl, rfl⟩, hlo⟩
    · exact .inr hf
  held_inside := by
    intro s hs
    obtain ⟨l, hl, rfl⟩ := mem_spans.1 hs
    exact (h.live_holds l hl).end_le h.wellFormed
  listed_inside := fun b hb => ⟨h.holds b hb, (h.holds b hb).end_le h.wellFormed⟩
  held_apart := by
    intro s hs t ht hne
    obtain ⟨a, ha, rfl⟩ := mem_spans.1 hs
    obtain ⟨c, hc, rfl⟩ := mem_spans.1 ht
    apply Tiers.apart_of_not_meets (h.live_holds a ha).1 (h.live_holds c hc).1
    intro hm
    exact hne (congrArg p.tiers.span (h.meets_eq ha hc hm))
  listed_apart := by
    intro a c ha hc hne
    exact Tiers.apart_of_not_meets (h.holds a ha).1 (h.holds c hc).1
      fun hm => hne (h.toThreads.apart a c ha hc hm)
  apart := by
    intro s hs b hb
    exact (h.vacant_iff (h.holds b hb)).1 (h.vacant_of_lists hb) s hs
  visits := fun tier ht => ⟨h.nodup tier, h.hasFreeList ht⟩
  lists_iff := by
    intro b hb
    rw [h.lists_iff b hb, Block.Free, h.vacant_iff hb]
    refine and_congr_right fun _ => forall_congr' fun ht => not_congr ?_
    exact h.vacant_iff (hb.up ht)
  marked_iff := by
    intro b hb
    rw [h.isMarked_inUse hb, decide_eq_decide.2 (h.inUse_iff hb)]
  not_both_free := fun b ht hb => h.not_lists_buddy hb ht
  used_eq := by
    have hinj : ∀ a ∈ live, ∀ c ∈ live, p.tiers.span a = p.tiers.span c → a = c :=
      fun a ha c hc he => h.eq_of_offset ha hc (congrArg Span.start he)
    rw [h.used_eq, spans, Finset.sum_image hinj]
    rfl

theorem Reachable.consistent (h : Reachable host request p held) : ∃ F, p.Consistent held F := by
  obtain ⟨live, F, hs, rfl⟩ := h.sound
  exact ⟨F, hs.consistent_spans⟩

/-- A pool of 64 bytes of which one quarter is held. -/
theorem consistent_quarter : ∃ p held, Reachable ⟨fun _ => true⟩ 64 p held ∧ held = {⟨0, 16⟩} ∧
    ∃ F, p.Consistent held F := by
  have h₀ : Reachable ⟨fun _ => true⟩ 64 _ _ := .created rfl
  have h₁ := h₀.returned (.alloc 10) (by set_option maxRecDepth 100000 in rfl)
  exact ⟨_, _, h₁, by decide, h₁.consistent⟩

/-! ### Calls on held addresses -/

/-- The answer of a call is an address of a large enough range. It is fresh, having no bytes in common
with any range held before, unless it is the address that the call was given. The ranges held from then
on are aligned, inside the region and apart, and those held before keep their bytes. -/
structure Serves (p : Buddy) (held : Finset Span) (c : Call) (reply : Reply) (q : Buddy) : Prop where
  result : ∀ address n, reply = .address (some address) → c.request? = some n →
    ∃ size, ⟨address, size⟩ ∈ heldAfter held c reply ∧ n ≤ size ∧
      ((∀ old, c ≠ .realloc (some old) n) → IsLeast {m | (∃ k, m = 16 * 2 ^ k) ∧ n ≤ m} size) ∧
      (c.pointer? ≠ some address → ∀ s ∈ held, s.start ≠ address ∧ s.Apart ⟨address, size⟩)
  sizeAt_eq : ∀ s ∈ heldAfter held c reply, q.sizeAt s.start = .ok s.size
  aligned : ∀ s ∈ heldAfter held c reply, 16 ∣ s.size ∧ s.size ∣ s.start
  inside : ∀ s ∈ heldAfter held c reply, s.start + s.size ≤ q.region.size
  apart : ∀ s ∈ heldAfter held c reply, ∀ t ∈ heldAfter held c reply, s ≠ t → s.Apart t
  byte : ∀ s ∈ held, s ∈ heldAfter held c reply → ∀ o, s.Has o →
    q.region.byte o = p.region.byte o

theorem Answers.serves_spans {c : Call} {reply : Reply} {live' : Finset Block}
    (h : p.Answers live c reply q live') (hp : p.Sound live F) :
    p.Serves (p.spans live) c reply q := by
  obtain ⟨G, hq⟩ := h.sound
  have hheld : heldAfter (p.spans live) c reply = q.spans live' := by
    rw [← h.held_eq, spans, spans, h.keeps.tiers]
  have hcon := hq.consistent_spans
  rw [← hheld] at hcon
  refine ⟨?_, ?_, ?_, ?_, hcon.held_apart, ?_⟩
  · intro address n he hn
    obtain ⟨b, hb, rfl, hle, hclass, hfresh⟩ := h.served address n he hn
    have hbt : p.tiers.Holds b := h.keeps.tiers ▸ hq.live_holds b hb
    refine ⟨p.tiers.extent b.tier, ?_, hle, ?_, ?_⟩
    · rw [← h.held_eq]
      exact mem_spans.2 ⟨b, hb, rfl⟩
    · intro hc
      rw [hclass hc]
      exact Tiers.sizeClass_isLeast n
    · exact fun hc => hp.fresh_spans hbt (hfresh hc)
  · intro s hs
    rw [hheld] at hs
    obtain ⟨b, hb, rfl⟩ := mem_spans.1 hs
    exact hq.sizeAt_some hb
  · intro s hs
    rw [hheld] at hs
    obtain ⟨b, hb, rfl⟩ := mem_spans.1 hs
    exact ⟨q.tiers.leastBlock_dvd_extent b.tier, Nat.dvd_mul_left _ _⟩
  · intro s hs
    rw [hcon.size_eq]
    exact hcon.held_inside s hs
  · intro s hs hs' o ho
    rw [← h.held_eq] at hs'
    obtain ⟨b, hb, rfl⟩ := mem_spans.1 hs
    obtain ⟨b', hb', he⟩ := mem_spans.1 hs'
    have hlt : b'.tier < p.tiers.count := h.keeps.tiers ▸ (hq.live_holds b' hb').1
    obtain rfl := Tiers.span_inj hlt (hp.live_holds b hb).1 he
    exact h.keeps.byte b' (Finset.mem_inter.2 ⟨hb, hb'⟩) o ho

theorem Reachable.serves (h : Reachable host request p held) (c : Call)
    (hc : ∀ address, c.pointer? = some address → ∃ s ∈ held, s.start = address) :
    ∃ reply q, c.run p = .ok reply q ∧ p.Serves held c reply q := by
  obtain ⟨live, F, hs, rfl⟩ := h.sound
  obtain ⟨reply, q, live', hrun, ha⟩ | ⟨cause, address, -, hp, hn⟩ := hs.settled c
  · exact ⟨reply, q, hrun, ha.serves_spans hs⟩
  · obtain ⟨s, hm, he⟩ := hc address hp
    obtain ⟨b, hb, rfl⟩ := mem_spans.1 hm
    exact absurd he (hn b hb)

/-- A held quarter of 64 bytes is asked to grow. -/
theorem serves_growing : ∃ p held, Reachable ⟨fun _ => true⟩ 64 p held ∧ ⟨0, 16⟩ ∈ held ∧
    ∃ reply q, (Call.realloc (some 0) 30).run p = .ok reply q ∧
      p.Serves held (.realloc (some 0) 30) reply q := by
  have h₀ : Reachable ⟨fun _ => true⟩ 64 _ _ := .created rfl
  have h₁ := h₀.returned (.alloc 10) (by set_option maxRecDepth 100000 in rfl)
  refine ⟨_, _, h₁, by decide, h₁.serves (.realloc (some 0) 30) ?_⟩
  rintro address ⟨⟩
  exact ⟨⟨0, 16⟩, by decide, rfl⟩

/-! ### Requests that fail -/

/-- A request fails exactly if it is empty, larger than the pool, or if every place for a block of its
size class has bytes in common with a held range. -/
theorem Reachable.alloc_none_iff (h : Reachable host request p held) (size : Nat) :
    ∃ result q, alloc size p = .ok result q ∧ ∃ m,
      IsLeast {m | (∃ k, m = 16 * 2 ^ k) ∧ size ≤ m} m ∧
      (result = none ↔ size = 0 ∨ p.tiers.capacity < size ∨
        ∀ a, m ∣ a → a + m ≤ p.tiers.capacity → ∃ s ∈ held, ¬ s.Apart ⟨a, m⟩) := by
  obtain ⟨live, F, hs, rfl⟩ := h.sound
  have hleast := Tiers.sizeClass_isLeast size
  obtain ⟨ha, hn⟩ | ⟨b, q, G, ha, hq, hv, hk, h₀, hcap, he⟩ := hs.alloc_cases size
  · refine ⟨none, p, ha, sizeClass size, hleast, iff_of_true rfl ?_⟩
    obtain h₀ | hcap | hfull := hn
    · exact .inl h₀
    · exact .inr (.inl hcap)
    by_cases hfit : size = 0 ∨ p.tiers.capacity < size
    · exact hfit.imp_right .inl
    rw [not_or, Nat.not_lt] at hfit
    obtain ⟨tier, ht, he, -⟩ := Tiers.fit_some hs.wellFormed hfit.1 hfit.2
    right
    right
    intro a hdvd hle
    rw [← he] at hdvd hle ⊢
    have hlt : a < p.tiers.capacity :=
      Nat.lt_of_lt_of_le (Nat.lt_add_of_pos_right (p.tiers.extent_pos tier)) hle
    obtain ⟨hb, -⟩ := Tiers.exists_holds_has hs.wellFormed ht hlt
    have hspan : p.tiers.span ⟨tier, a / p.tiers.extent tier⟩ = ⟨a, p.tiers.extent tier⟩ :=
      congrArg (Span.mk · (p.tiers.extent tier)) (Nat.div_mul_cancel hdvd)
    have hnv := hfull _ hb he
    rw [hs.vacant_iff hb, hspan] at hnv
    push Not at hnv
    exact hnv
  · refine ⟨_, q, ha, sizeClass size, hleast, iff_of_false (fun hn => nomatch hn) ?_⟩
    rintro (hz | hlt | hfull)
    · exact h₀ hz
    · exact Nat.not_lt_of_ge hcap hlt
    · have hb : p.tiers.Holds b := hk.tiers ▸ hq.live_holds b (Finset.mem_insert_self b live)
      obtain ⟨s, hm, hn⟩ := hfull (p.tiers.offset b) (he ▸ Nat.dvd_mul_left _ _)
        (he ▸ hb.end_le hs.wellFormed)
      rw [← he] at hn
      exact hn ((hs.vacant_iff hb).1 hv s hm)

/-- With one quarter of 64 bytes held, there is no place for all of them. -/
theorem alloc_none_quarter : ∃ p held, Reachable ⟨fun _ => true⟩ 64 p held ∧ held = {⟨0, 16⟩} ∧
    ∃ result q, alloc 64 p = .ok result q ∧ ∃ m,
      IsLeast {m | (∃ k, m = 16 * 2 ^ k) ∧ 64 ≤ m} m ∧
      (result = none ↔ 64 = 0 ∨ p.tiers.capacity < 64 ∨
        ∀ a, m ∣ a → a + m ≤ p.tiers.capacity → ∃ s ∈ held, ¬ s.Apart ⟨a, m⟩) := by
  have h₀ : Reachable ⟨fun _ => true⟩ 64 _ _ := .created rfl
  have h₁ := h₀.returned (.alloc 10) (by set_option maxRecDepth 100000 in rfl)
  exact ⟨_, _, h₁, by decide, h₁.alloc_none_iff 64⟩

/-! ### Calls on any address -/

/-- The pool knows the size of the range that is held at an address, which is zero if there is none,
and a call that is given the address answers exactly if there is one, and else changes nothing. -/
structure Recognizes (p : Buddy) (held : Finset Span) (address : Address) : Prop where
  sizeAt_held : ∀ s ∈ held, s.start = address → p.sizeAt address = .ok s.size
  sizeAt_other : (∀ s ∈ held, s.start ≠ address) → p.sizeAt address = .ok 0
  answers_iff : ∀ c : Call, c.pointer? = some address →
    ((∃ reply q, c.run p = .ok reply q) ↔ ∃ s ∈ held, s.start = address)
  unchanged : ∀ (c : Call) (cause : Fault) (q : Buddy), c.pointer? = some address →
    c.run p = .error cause q → q = p

theorem Sound.answers_iff (h : p.Sound live F) {c : Call} {address : Nat}
    (hc : c.pointer? = some address) :
    (∃ reply q, c.run p = .ok reply q) ↔ ∃ b ∈ live, p.tiers.offset b = address := by
  constructor
  · rintro ⟨reply, q, hrun⟩
    by_contra hb
    obtain ⟨cause, he⟩ := h.refuses hc fun b hbl he => hb ⟨b, hbl, he⟩
    rw [hrun] at he
    cases he
  · rintro ⟨b, hb, ho⟩
    obtain ⟨reply, q, live', hrun, -⟩ | ⟨cause, a, -, ha, hn⟩ := h.settled c
    · exact ⟨reply, q, hrun⟩
    · rw [hc, Option.some.injEq] at ha
      exact absurd (ho.trans ha) (hn b hb)

theorem exists_mem_spans {address : Nat} :
    (∃ s ∈ p.spans live, s.start = address) ↔ ∃ b ∈ live, p.tiers.offset b = address := by
  constructor
  · rintro ⟨s, hs, rfl⟩
    obtain ⟨b, hb, rfl⟩ := mem_spans.1 hs
    exact ⟨b, hb, rfl⟩
  · rintro ⟨b, hb, rfl⟩
    exact ⟨_, mem_spans.2 ⟨b, hb, rfl⟩, rfl⟩

theorem Reachable.recognizes (h : Reachable host request p held) (address : Address) :
    p.Recognizes held address := by
  obtain ⟨live, F, hs, rfl⟩ := h.sound
  constructor
  · rintro s hm rfl
    obtain ⟨b, hb, rfl⟩ := mem_spans.1 hm
    exact hs.sizeAt_some hb
  · intro hn
    exact hs.sizeAt_none fun b hb => hn _ (mem_spans.2 ⟨b, hb, rfl⟩)
  · intro c hc
    exact (hs.answers_iff hc).trans exists_mem_spans.symm
  · intro c cause q _ hrun
    exact hs.eq_of_error hrun

/-- With one quarter of 64 bytes held, the other addresses in it and outside of it are told apart
from that of its first byte. -/
theorem recognizes_quarter : ∃ p held, Reachable ⟨fun _ => true⟩ 64 p held ∧ held = {⟨0, 16⟩} ∧
    ∀ address, p.Recognizes held address := by
  have h₀ : Reachable ⟨fun _ => true⟩ 64 _ _ := .created rfl
  have h₁ := h₀.returned (.alloc 10) (by set_option maxRecDepth 100000 in rfl)
  exact ⟨_, _, h₁, by decide, h₁.recognizes⟩

/-- A release with any hint ends in the same state as one without, or both fail and change nothing. -/
theorem Reachable.dealloc_agrees (h : Reachable host request p held) (address : Address)
    (hint : Nat) :
    (∃ q, dealloc address hint p = .ok () q ∧ free address p = .ok () q) ∨
    ∃ cause cause', dealloc address hint p = .error cause p ∧ free address p = .error cause' p := by
  obtain ⟨live, F, hs, rfl⟩ := h.sound
  by_cases hb : ∃ b ∈ live, p.tiers.offset b = address
  · obtain ⟨b, hb, rfl⟩ := hb
    obtain ⟨q, G, hf, -⟩ := hs.free_ok hb
    exact .inl ⟨q, (hs.dealloc_eq hb hint).trans hf, hf⟩
  · have ha : ∀ b ∈ live, p.tiers.offset b ≠ address := fun b hbl he => hb ⟨b, hbl, he⟩
    obtain ⟨cause, hd⟩ := hs.dealloc_error ha hint
    obtain ⟨cause', hf⟩ := hs.free_error ha
    exact .inr ⟨cause, cause', hd, hf⟩

/-- The hint for a held quarter is the size of all four. -/
theorem dealloc_agrees_quarter : ∃ p held, Reachable ⟨fun _ => true⟩ 64 p held ∧
    held = {⟨0, 16⟩} ∧
    ((∃ q, dealloc 0 64 p = .ok () q ∧ free 0 p = .ok () q) ∨
      ∃ cause cause', dealloc 0 64 p = .error cause p ∧ free 0 p = .error cause' p) := by
  have h₀ : Reachable ⟨fun _ => true⟩ 64 _ _ := .created rfl
  have h₁ := h₀.returned (.alloc 10) (by set_option maxRecDepth 100000 in rfl)
  exact ⟨_, _, h₁, by decide, h₁.dealloc_agrees 0 64⟩

end FixedPool.Buddy
