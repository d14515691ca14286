import FixedPool.Proofs.Buddy.Contract
import FixedPool.Proofs.Linear.Contract

/-!
What a caller can rely on with either pool: the number of bytes that are available tells which
requests are served, no call on what is held ends in a failed check, and a request that is declined
leaves no trace.
-/

namespace FixedPool

variable {σ : Type} [Allocator σ]

/-! ### What is available -/

/-- Exactly the requests from one byte up to what is available are served. -/
def Exact (s : σ) : Prop :=
  ∃ n, Allocator.available s = .ok n ∧ ∀ size, ∃ result t,
    (Allocator.alloc size : Op σ (Option Address)) s = .ok result t ∧
    (result.isSome ↔ 1 ≤ size ∧ size ≤ n)

theorem Buddy.Sound.exact {p : Buddy} {live : Finset Block} {F : FreeLists}
    (h : p.Sound live F) : Exact p := by
  obtain ⟨n, hn, hcases, hcarved⟩ := h.available_carved
  have hcap : n ≤ p.tiers.capacity := by
    obtain rfl | ⟨t, rfl⟩ := hcases
    · exact Nat.zero_le _
    · exact Tiers.extent_le_capacity h.wellFormed t
  have hclass : ∀ size, size ≠ 0 → (sizeClass size ≤ n ↔ size ≤ n) := by
    intro size hsize
    obtain rfl | ⟨t, rfl⟩ := hcases
    · have := (Tiers.sizeClass_isLeast size).1.2
      omega
    · exact Tiers.sizeClass_le_extent
  refine ⟨n, hn, fun size => ?_⟩
  by_cases hs : size = 0 ∨ p.tiers.capacity < size
  · exact ⟨none, p, h.alloc_none_of_size hs, iff_of_false nofun (by omega)⟩
  rw [not_or, Nat.not_lt] at hs
  obtain ⟨tier, hlt, he, hrun⟩ := h.alloc_carved hs.1 hs.2
  have hiff : size ≤ n ↔ F.carved tier ≠ none := by
    rw [ne_eq, hcarved tier hlt, Nat.not_lt, he, hclass size hs.1]
  obtain ⟨hc, ha⟩ | ⟨i, G, q, hc, ha, -⟩ := hrun
  · exact ⟨none, p, ha, iff_of_false nofun fun hle => hiff.1 hle.2 hc⟩
  · have hsome : F.carved tier ≠ none := by
      rw [hc]
      exact nofun
    exact ⟨_, q, ha, iff_of_true rfl ⟨Nat.pos_of_ne_zero hs.1, hiff.2 hsome⟩⟩

theorem Linear.Chained.exact {p : Linear} {leases : Linear.Leases} {cells : List Nat}
    (h : p.Chained leases cells) (hd : 8 ∣ p.region.size) : Exact p := by
  have hle := h.cursor_le
  have hc := h.dvd_cursor
  refine ⟨p.region.size - (p.cursor + 8), h.available_ok, fun size => ?_⟩
  by_cases hf : p.Fits size
  · refine ⟨_, _, h.alloc_eq hf, iff_of_true rfl ?_⟩
    have hx := Linear.cellExtent_ge size
    obtain ⟨hn, hroom⟩ := hf
    omega
  · refine ⟨none, p, h.alloc_none hf, iff_of_false nofun ?_⟩
    rintro ⟨hn, hroom⟩
    apply hf
    unfold Linear.Fits Linear.cellExtent
    omega

theorem available_exact (host : Host) (request : Nat) :
    (∀ p held, Buddy.Reachable host request p held → Exact p) ∧
    ∀ p leases, Linear.Reachable host request p leases → Exact p := by
  constructor
  · intro p held h
    obtain ⟨live, F, hs, -⟩ := h.sound
    exact hs.exact
  · intro p leases h
    obtain ⟨cells, hp⟩ := h.chained
    exact hp.exact h.dvd_size

/-- A buddy pool of which one quarter is held, and a linear pool with one cell. -/
theorem available_exact_held :
    (∃ p held, Buddy.Reachable ⟨fun _ => true⟩ 64 p held ∧ held = {⟨0, 16⟩} ∧ Exact p) ∧
    ∃ p leases, Linear.Reachable ⟨fun _ => true⟩ 64 p leases ∧ leases 0 = some ⟨10, false⟩ ∧
      Exact p := by
  obtain ⟨hbuddy, hlinear⟩ := available_exact ⟨fun _ => true⟩ 64
  have b₀ : Buddy.Reachable ⟨fun _ => true⟩ 64 _ _ := .created rfl
  have b₁ := b₀.returned (.alloc 10) (by set_option maxRecDepth 100000 in rfl)
  have l₀ : Linear.Reachable ⟨fun _ => true⟩ 64 _ _ := .created rfl
  have l₁ := l₀.returned (.alloc 10) rfl
  exact ⟨⟨_, _, b₁, by decide, hbuddy _ _ b₁⟩, _, _, l₁, rfl, hlinear _ _ l₁⟩

/-! ### Failed checks -/

/-- A pool is built, unless the host refuses its region. -/
def Builds (σ : Type) [Allocator σ] (host : Host) (request : Nat) : Prop :=
  (∃ s : σ, Allocator.create host request = .ok s) ∨
  ∃ n, host.grants n = false ∧
    (Allocator.create host request : Except Error σ) = .error (.unmapped n)

/-- No check fails in a call on a held address or in a question for the counts, and no more bytes are
in use than there are. -/
structure Safe (s : σ) (Held : Address → Prop) : Prop where
  answers : ∀ c : Call, (∀ address, c.pointer? = some address → Held address) →
    ∃ reply t, c.run s = .ok reply t
  stats : ∃ counts, Allocator.stats s = .ok counts
  used_le : Allocator.used s ≤ Allocator.capacity s

theorem Exact.stats {s : σ} (h : Exact s) : ∃ counts, Allocator.stats s = .ok counts := by
  obtain ⟨n, hn, -⟩ := h
  exact ⟨_, Allocator.stats_ok hn⟩

theorem Buddy.Sound.safe {p : Buddy} {live : Finset Block} {F : FreeLists} (h : p.Sound live F) :
    Safe p fun address => ∃ s ∈ p.spans live, s.start = address where
  answers := by
    intro c hc
    obtain ⟨reply, q, live', hrun, -⟩ | ⟨cause, address, -, hp, hn⟩ := h.settled c
    · exact ⟨reply, q, hrun⟩
    · obtain ⟨b, hb, ho⟩ := exists_mem_spans.1 (hc address hp)
      exact absurd ho (hn b hb)
  stats := h.exact.stats
  used_le := h.used_le

theorem Linear.Chained.safe {p : Linear} {leases : Linear.Leases} {cells : List Nat}
    (h : p.Chained leases cells) (ht : p.Trim leases) (hd : 8 ∣ p.region.size) :
    Safe p leases.Held where
  answers := by
    intro c hc
    obtain ⟨reply, q, hrun, -⟩ | ⟨cause, q, -, -, hn, -⟩ := h.settled c
    · exact ⟨reply, q, hrun⟩
    · obtain ⟨address, ha, hn⟩ := hn ht
      exact absurd (hc address ha) hn
  stats := (h.exact hd).stats
  used_le := h.cursor_le

theorem never_faults (host : Host) (request : Nat) :
    Builds Buddy host request ∧ Builds Linear host request ∧
    (∀ p held, Buddy.Reachable host request p held →
      Safe p (fun address => ∃ s ∈ held, s.start = address) ∧
      (∀ address, ∃ size, p.sizeAt address = .ok size) ∧ ∀ s ∈ held, s.size ≤ p.used) ∧
    ∀ p leases, Linear.Reachable host request p leases → Safe p leases.Held := by
  refine ⟨?_, ?_, ?_, ?_⟩
  · obtain ⟨p, F, hp, -⟩ | hn := Buddy.create_cases host request
    · exact .inl ⟨p, hp⟩
    · exact .inr hn
  · obtain ⟨p, hp, -⟩ | hn := Linear.create_cases host request
    · exact .inl ⟨p, hp⟩
    · exact .inr hn
  · intro p held h
    obtain ⟨live, F, hs, rfl⟩ := h.sound
    refine ⟨hs.safe, ?_, ?_⟩
    · intro address
      by_cases hb : ∃ b ∈ live, p.tiers.offset b = address
      · obtain ⟨b, hb, rfl⟩ := hb
        exact ⟨_, hs.sizeAt_some hb⟩
      · exact ⟨0, hs.sizeAt_none fun b hbl he => hb ⟨b, hbl, he⟩⟩
    · intro s hm
      obtain ⟨b, hb, rfl⟩ := Buddy.mem_spans.1 hm
      rw [hs.used_eq]
      exact Finset.single_le_sum (f := fun b => p.tiers.extent b.tier)
        (fun _ _ => Nat.zero_le _) hb
  · intro p leases h
    obtain ⟨cells, hp⟩ := h.chained
    exact hp.safe h.trim h.dvd_size

theorem never_faults_held :
    (∃ p held, Buddy.Reachable ⟨fun _ => true⟩ 64 p held ∧ held = {⟨0, 16⟩} ∧
      Safe p (fun address => ∃ s ∈ held, s.start = address) ∧ ∀ s ∈ held, s.size ≤ p.used) ∧
    ∃ p leases, Linear.Reachable ⟨fun _ => true⟩ 64 p leases ∧ leases 0 = some ⟨10, false⟩ ∧
      Safe p leases.Held := by
  obtain ⟨-, -, hbuddy, hlinear⟩ := never_faults ⟨fun _ => true⟩ 64
  have b₀ : Buddy.Reachable ⟨fun _ => true⟩ 64 _ _ := .created rfl
  have b₁ := b₀.returned (.alloc 10) (by set_option maxRecDepth 100000 in rfl)
  have l₀ : Linear.Reachable ⟨fun _ => true⟩ 64 _ _ := .created rfl
  have l₁ := l₀.returned (.alloc 10) rfl
  obtain ⟨hsafe, -, hused⟩ := hbuddy _ _ b₁
  exact ⟨⟨_, _, b₁, by decide, hsafe, hused⟩, _, _, l₁, rfl, hlinear _ _ l₁⟩

/-! ### Requests that are declined -/

/-- A step hands out an address, or hands out nothing and leaves the state as it is. -/
def Spares (x : Op σ (Option Address)) (s : σ) : Prop :=
  x s = .ok none s ∨ ∃ a t, x s = .ok (some a) t

/-- Every request is answered, if the address that it is about is held and it is not for zero bytes
there. When nothing is handed out, the state stays as it is, and the address can still be released. -/
def Declines (s : σ) (Held : Address → Prop) : Prop :=
  ∀ (c : Call) (size : Nat), c.request? = some size →
    (∀ address, c.pointer? = some address → size ≠ 0 ∧ Held address) →
    ∃ reply t, c.run s = .ok reply t ∧ (reply = .address none → t = s ∧
      ∀ address, c.pointer? = some address → ∃ u, (Allocator.free address : Op σ Unit) t = .ok () u)

omit [Allocator σ] in
theorem Spares.answered {x : Op σ (Option Address)} {s : σ} (h : Spares x s) :
    ∃ reply t, (Reply.address <$> x : Op σ Reply) s = .ok reply t ∧
      (reply = .address none → t = s) := by
  obtain h | ⟨a, t, h⟩ := h
  · refine ⟨.address none, s, ?_, fun _ => rfl⟩
    rw [Op.map_apply, h]
  · refine ⟨.address (some a), t, ?_, nofun⟩
    rw [Op.map_apply, h]

theorem Spares.calloc {s : σ} {count size : Nat}
    (h : Spares (Allocator.alloc (count * size)) s) : Spares (Allocator.calloc count size) s := by
  rw [Spares, Allocator.calloc_apply]
  split
  next => exact .inl rfl
  next =>
    obtain h | ⟨a, t, h⟩ := h
    · rw [h]
      exact .inl rfl
    · rw [h]
      exact .inr ⟨a, _, rfl⟩

theorem declines_of_spares {s : σ} {Held : Address → Prop}
    (hfree : ∀ address, Held address → ∃ u, (Allocator.free address : Op σ Unit) s = .ok () u)
    (halloc : ∀ size, Spares (Allocator.alloc size) s)
    (hnew : ∀ size, Spares (Allocator.realloc none size) s)
    (hresize : ∀ address size, size ≠ 0 → Held address →
      Spares (Allocator.realloc (some address) size) s) : Declines s Held := by
  intro c size hc hp
  have hrun : ∃ reply t, c.run s = .ok reply t ∧ (reply = .address none → t = s) := by
    cases c with
    | alloc size => exact (halloc size).answered
    | calloc count size => exact (halloc (count * size)).calloc.answered
    | realloc address size =>
      cases hc
      cases address with
      | none => exact (hnew size).answered
      | some address =>
        obtain ⟨hn, hh⟩ := hp address rfl
        exact (hresize address size hn hh).answered
    | free _ => cases hc
    | dealloc _ _ => cases hc
    | reset => cases hc
  obtain ⟨reply, t, hrun, hs⟩ := hrun
  refine ⟨reply, t, hrun, fun hr => ⟨hs hr, ?_⟩⟩
  intro address ha
  rw [hs hr]
  exact hfree address (hp address ha).2

theorem Buddy.Sound.declines {p : Buddy} {live : Finset Block} {F : FreeLists}
    (h : p.Sound live F) : Declines p fun address => ∃ s ∈ p.spans live, s.start = address := by
  have halloc (size : Nat) : Spares (Buddy.alloc size) p := by
    obtain ⟨ha, -⟩ | ⟨b, q, G, ha, -⟩ := h.alloc_cases size
    · exact .inl ha
    · exact .inr ⟨_, q, ha⟩
  apply declines_of_spares _ halloc halloc
  · intro address size hn hh
    obtain ⟨b, hb, rfl⟩ := exists_mem_spans.1 hh
    have hr : Buddy.realloc (some (p.tiers.offset b)) size = resize (p.tiers.offset b) size :=
      if_neg hn
    change Spares (Buddy.realloc (some (p.tiers.offset b)) size) p
    rw [hr]
    obtain ha | ⟨ha, -⟩ | ⟨c, q, G, ha, -⟩ := h.resize_cases hb size
    · exact .inl ha
    · exact .inr ⟨_, p, ha⟩
    · exact .inr ⟨_, q, ha⟩
  · intro address hh
    obtain ⟨b, hb, rfl⟩ := exists_mem_spans.1 hh
    obtain ⟨q, G, hq, -⟩ := h.free_ok hb
    exact ⟨q, hq⟩

theorem Linear.Chained.declines {p : Linear} {leases : Linear.Leases} {cells : List Nat}
    (h : p.Chained leases cells) (ht : p.Trim leases) : Declines p leases.Held := by
  have halloc (size : Nat) : Spares (Linear.alloc size) p := by
    obtain ha | ⟨-, ha⟩ := h.alloc_cases size
    · exact .inl ha
    · exact .inr ⟨_, _, ha⟩
  apply declines_of_spares (fun address hh => h.free_held ht hh) halloc halloc
  intro address size hn hh
  have hr : Linear.realloc (some address) size = move address size := if_neg hn
  change Spares (Linear.realloc (some address) size) p
  rw [hr]
  obtain ⟨cause, q, -, -, hnot, -⟩ | ha | ⟨-, -, q, ha, -⟩ := h.move_cases address size
  · exact absurd hh (hnot ht)
  · exact .inl ha
  · exact .inr ⟨_, q, ha⟩

theorem declined_unchanged (host : Host) (request : Nat) :
    (∀ p held, Buddy.Reachable host request p held →
      Declines p fun address => ∃ s ∈ held, s.start = address) ∧
    ∀ p leases, Linear.Reachable host request p leases → Declines p leases.Held := by
  constructor
  · intro p held h
    obtain ⟨live, F, hs, rfl⟩ := h.sound
    exact hs.declines
  · intro p leases h
    obtain ⟨cells, hp⟩ := h.chained
    exact hp.declines h.trim

/-- What is held in pools of 64 bytes is asked to grow beyond them. -/
theorem declined_unchanged_growing :
    (∃ p held q, Buddy.Reachable ⟨fun _ => true⟩ 64 p held ∧ held = {⟨0, 16⟩} ∧
      (Call.realloc (some 0) 100).run p = .ok (.address none) q ∧ q = p ∧
      ∃ r, Buddy.free 0 q = .ok () r) ∧
    ∃ p leases q, Linear.Reachable ⟨fun _ => true⟩ 64 p leases ∧ leases 0 = some ⟨10, false⟩ ∧
      (Call.realloc (some 8) 100).run p = .ok (.address none) q ∧ q = p ∧
      ∃ r, Linear.free 8 q = .ok () r := by
  obtain ⟨hbuddy, hlinear⟩ := declined_unchanged ⟨fun _ => true⟩ 64
  constructor
  · have hrun : ∃ p₀ q, Buddy.create ⟨fun _ => true⟩ 64 = .ok p₀ ∧
        (do return (← (Call.alloc 10).run, ← (Call.realloc (some 0) 100).run) :
          Op Buddy (Reply × Reply)) p₀ = .ok (.address (some 0), .address none) q :=
      Op.exists_of_answerFrom (by decide +kernel)
    obtain ⟨p₀, q, hp₀, hq⟩ := hrun
    simp only [Op.bind_eq_ok, Op.pure_apply, EStateM.Result.ok.injEq, Prod.mk.injEq] at hq
    obtain ⟨_, p, hp, _, q, hq, ⟨rfl, rfl⟩, rfl⟩ := hq
    have hp := (Buddy.Reachable.created hp₀).returned _ hp
    obtain ⟨reply, t, ht, hn⟩ := hbuddy p _ hp (.realloc (some 0) 100) 100 rfl (by
      rintro _ ⟨⟩
      exact ⟨by decide, ⟨0, 16⟩, by decide, rfl⟩)
    rw [hq] at ht
    cases ht
    obtain ⟨he, hf⟩ := hn rfl
    exact ⟨p, _, q, hp, by decide, hq, he, hf 0 rfl⟩
  · have hrun : ∃ p₀ q, Linear.create ⟨fun _ => true⟩ 64 = .ok p₀ ∧
        (do return (← (Call.alloc 10).run, ← (Call.realloc (some 8) 100).run) :
          Op Linear (Reply × Reply)) p₀ = .ok (.address (some 8), .address none) q :=
      Op.exists_of_answerFrom (by decide +kernel)
    obtain ⟨p₀, q, hp₀, hq⟩ := hrun
    simp only [Op.bind_eq_ok, Op.pure_apply, EStateM.Result.ok.injEq, Prod.mk.injEq] at hq
    obtain ⟨_, p, hp, _, q, hq, ⟨rfl, rfl⟩, rfl⟩ := hq
    have hp := (Linear.Reachable.created hp₀).returned _ hp
    obtain ⟨reply, t, ht, hn⟩ := hlinear p _ hp (.realloc (some 8) 100) 100 rfl (by
      rintro _ ⟨⟩
      exact ⟨by decide, 0, 10, rfl, rfl⟩)
    rw [hq] at ht
    cases ht
    obtain ⟨he, hf⟩ := hn rfl
    exact ⟨p, _, q, hp, rfl, hq, he, hf 8 rfl⟩

end FixedPool
