import FixedPool.Proofs.Buddy.Calls

/-!
Runs of a buddy pool: any calls with any addresses, between which callers write to the bytes that
they hold. After each of them the pool represents a set of live blocks, which are the ranges that the
answers of the calls tell of.
-/

namespace FixedPool.Buddy

/-- The ranges that callers hold after a call that answered. -/
def heldAfter (held : Finset Span) : Call → Reply → Finset Span
  | .alloc size, .address (some a) => insert ⟨a, sizeClass size⟩ held
  | .calloc count size, .address (some a) => insert ⟨a, sizeClass (count * size)⟩ held
  | .realloc none size, .address (some a) => insert ⟨a, sizeClass size⟩ held
  | .realloc (some address) size, .address (some a) =>
    if a = address then held
    else insert ⟨a, sizeClass size⟩ (held.filter (·.start ≠ address))
  | .realloc (some address) 0, .address none => held.filter (·.start ≠ address)
  | .free address, .done => held.filter (·.start ≠ address)
  | .dealloc address _, .done => held.filter (·.start ≠ address)
  | _, _ => held

set_option autoImplicit true in
/-- The states of a pool after any calls, with the ranges that callers hold by their answers. -/
inductive Reachable (host : Host) (request : Nat) : Buddy → Finset Span → Prop
  | created : create host request = .ok p → Reachable host request p ∅
  | returned (c : Call) : Reachable host request p held → c.run p = .ok reply q →
      Reachable host request q (heldAfter held c reply)
  | faulted (c : Call) : Reachable host request p held → c.run p = .error cause q →
      Reachable host request q held
  | stored (v : UInt8) : Reachable host request p held → s ∈ held → s.Has offset →
      Reachable host request { p with region := p.region.setByte offset v } held

variable {p q : Buddy} {live : Finset Block} {held : Finset Span} {F G : FreeLists} {b : Block}
  {host host' : Host} {request : Nat}

/-! ### New pools -/

theorem Shaped.threads_nil (h : p.Shaped)
    (hh : ∀ tier < p.tiers.count, p.heads[tier]? = some none) : p.Threads fun _ => [] where
  toShaped := h
  holds := fun _ ha => nomatch ha
  apart := fun _ _ ha => nomatch ha
  nodup := fun _ => List.nodup_nil
  head := hh
  thread := fun _ => trivial

theorem represents_root (ht : p.Threads fun _ => []) (hc : p.marks.Covers p.tiers.count)
    (hn : ∀ a, ¬ p.marks.Marked a) :
    (p.withMarks (p.marks.setBit (2 ^ Block.root.tier + Block.root.index))).Represents
      (insert Block.root ∅) fun _ => [] := by
  have hroot : p.tiers.Holds Block.root := Tiers.holds_root ht.wellFormed
  have hwithin : ∀ a, p.tiers.Holds a → a.Within Block.root := by
    intro a ha
    exact (Block.within_iff a.tier (Nat.zero_add a.tier).symm).2 (Nat.div_eq_of_lt ha.2)
  refine ⟨ht.withMarks _, covers_setBit hc hroot, ?_, ?_, ?_, ?_⟩
  · rw [tiers_withMarks]
    intro a ha
    obtain rfl := Finset.mem_singleton.1 ha
    exact hroot
  · intro a ha c hc _
    exact (Finset.mem_singleton.1 ha).trans (Finset.mem_singleton.1 hc).symm
  · rw [tiers_withMarks]
    intro a ha
    rw [marks_withMarks, hc.marked_setBit hroot.1 hroot.2 ha.2, Block.inUse_insert]
    constructor
    · rintro (hma | rfl)
      · exact absurd hma (hn a)
      · exact .inl (.refl _)
    · rintro (hra | ⟨l, hl, -⟩)
      · exact .inr ((hwithin a ha).antisymm hra)
      · cases hl
  · rw [tiers_withMarks]
    intro a ha
    apply iff_of_false (fun hl => nomatch hl)
    intro hf
    exact hf.1 Block.root (Finset.mem_insert_self _ _) (.inl (hwithin a ha))

/-- A pool starts with the root block as its only free one. -/
theorem sound_of_form {region : Region} {tiers : Tiers} (hw : tiers.WellFormed)
    (hn : tiers.count ≤ 32) (hs : region.size = tiers.capacity) :
    ∃ p₀ p F, unformed region tiers = .ok p₀ ∧ form p₀ = .ok () p ∧ p.Sound ∅ F ∧ p.peak = 0 ∧
      p.tiers = tiers := by
  obtain ⟨m, hm, hcov, hnone⟩ := Bitmap.empty_ok hw.count_le
  let p₀ : Buddy := ⟨region, tiers, m, Array.replicate tiers.count none, 0, 0⟩
  have hshaped : p₀.Shaped := ⟨hw, hn, hs, Array.size_replicate⟩
  have ht : p₀.Threads fun _ => [] := by
    apply hshaped.threads_nil
    intro tier htier
    exact (Array.getElem?_replicate ..).trans (if_pos htier)
  -- The root is released as if it had been handed out.
  obtain ⟨p, hp, hr, hf⟩ := (represents_root ht hcov hnone).coalesceAt (fun l hl => nomatch hl)
  refine ⟨p₀, p, _, ?_, ?_, ⟨hr, ?_⟩, ?_, hf.tiers.trans (tiers_withMarks p₀ _)⟩
  · rw [unformed, hm, Checked.ok_bind]
    rfl
  · rw [form, Op.bind_ok _ (mark_ok (p := p₀) hcov (Tiers.holds_root hw))]
    exact hp
  · rw [hf.used, Finset.sum_empty]
    exact (follows_withMarks p₀ _ ∅).used
  · rw [hf.peak]
    exact (follows_withMarks p₀ _ ∅).peak

/-- There is one pool for a request, which represents no live block and is built by every host that
does not refuse its region. -/
theorem create_eq (request : Nat) :
    ∃ p F n, p.Sound ∅ F ∧ p.peak = 0 ∧ p.tiers.capacity ≤ 2 ^ 31 ∧ ∀ host,
      create host request = .ok p ∨
      host.grants n = false ∧ create host request = .error (.unmapped n) := by
  obtain ⟨k, hk, hk', hpow⟩ := Word.powerOfTwoWithin_ok request (by decide : 4 ≤ mostShift)
    (by decide)
  have hmost : mostShift = 31 := rfl
  have hzeros : (⟨Region.zeros (2 ^ k)⟩ : Region).size = 2 ^ k := Region.size_zeros (2 ^ k)
  obtain ⟨p₀, p, F, hp₀, hp, hs, hpk, ht⟩ := sound_of_form
    (Tiers.wellFormed_two_pow hk (by omega)) (by change k - 3 ≤ 32; omega) hzeros
  have hcap : p.tiers.capacity ≤ 2 ^ 31 := by
    rw [ht]
    exact Nat.pow_le_pow_right (by decide) hk'
  refine ⟨p, F, 2 ^ k, hs, hpk, hcap, fun host => ?_⟩
  rw [create, Checked.lift_bind _ hpow, Checked.lift_bind _ (Tiers.of_two_pow hk (by omega))]
  obtain hm | ⟨hg, hm⟩ := Region.map_cases host (Nat.ne_of_gt (Nat.two_pow_pos k))
  · rw [hm, Checked.ok_bind, Checked.lift_bind _ hp₀, hp]
    exact .inl rfl
  · rw [hm]
    exact .inr ⟨hg, rfl⟩

/-- A pool is built, and represents no live block, unless the host refuses its region. -/
theorem create_cases (host : Host) (request : Nat) :
    (∃ p F, create host request = .ok p ∧ p.Sound ∅ F ∧ p.peak = 0) ∨
    ∃ n, host.grants n = false ∧ create host request = .error (.unmapped n) := by
  obtain ⟨p, F, n, hs, hpk, -, hcreate⟩ := create_eq request
  exact (hcreate host).imp (fun hp => ⟨p, F, hp, hs, hpk⟩) fun hn => ⟨n, hn⟩

theorem sound_of_create (h : create host request = .ok p) : ∃ F, p.Sound ∅ F ∧ p.peak = 0 := by
  obtain ⟨r, F, n, hr, hpk, -, hcreate⟩ := create_eq request
  obtain rfl := Checked.eq_of_ok (hcreate host) h
  exact ⟨F, hr, hpk⟩

theorem eq_of_create (hp : create host request = .ok p) (hq : create host' request = .ok q) :
    q = p := by
  obtain ⟨r, F, n, -, -, -, hcreate⟩ := create_eq request
  exact (Checked.eq_of_ok (hcreate host') hq).trans (Checked.eq_of_ok (hcreate host) hp).symm

theorem capacity_le_of_create (h : create host request = .ok p) : p.tiers.capacity ≤ 2 ^ 31 := by
  obtain ⟨r, F, n, -, -, hcap, hcreate⟩ := create_eq request
  obtain rfl := Checked.eq_of_ok (hcreate host) h
  exact hcap

/-! ### One call -/

/-- The bytes of the live blocks. -/
def spans (p : Buddy) (live : Finset Block) : Finset Span := live.image p.tiers.span

/-- A call answered: the pool represents the blocks that it should, of which those that were live
before have kept their bytes, and an address in the answer is that of a block of the right size, which
was vacant before unless the call was given that address. -/
structure Answers (p : Buddy) (live : Finset Block) (c : Call) (reply : Reply) (q : Buddy)
    (live' : Finset Block) : Prop where
  sound : ∃ F, q.Sound live' F
  keeps : p.Keeps q (live ∩ live')
  held_eq : p.spans live' = heldAfter (p.spans live) c reply
  served : ∀ address size, reply = .address (some address) → c.request? = some size →
    ∃ b ∈ live', p.tiers.offset b = address ∧ size ≤ p.tiers.extent b.tier ∧
      ((∀ old, c ≠ .realloc (some old) size) → p.tiers.extent b.tier = sizeClass size) ∧
      (c.pointer? ≠ some address → b.Vacant live)

/-- A call answers, or refuses an address at which no live block begins and changes nothing. -/
def Settled (p : Buddy) (live : Finset Block) (c : Call) : Prop :=
  (∃ reply q live', c.run p = .ok reply q ∧ p.Answers live c reply q live') ∨
  ∃ cause address, c.run p = .error cause p ∧ c.pointer? = some address ∧
    ∀ b ∈ live, p.tiers.offset b ≠ address

theorem spans_insert (p : Buddy) (b : Block) (live : Finset Block) :
    p.spans (insert b live) = insert (p.tiers.span b) (p.spans live) :=
  Finset.image_insert ..

theorem mem_spans {s : Span} : s ∈ p.spans live ↔ ∃ b ∈ live, p.tiers.span b = s :=
  Finset.mem_image

theorem Represents.spans_erase (h : p.Represents live F) (hb : b ∈ live) :
    p.spans (live.erase b) = (p.spans live).filter (·.start ≠ p.tiers.offset b) := by
  ext s
  rw [Finset.mem_filter, mem_spans, mem_spans]
  constructor
  · rintro ⟨l, hl, rfl⟩
    obtain ⟨hne, hl⟩ := Finset.mem_erase.1 hl
    exact ⟨⟨l, hl, rfl⟩, fun he => hne (h.eq_of_offset hl hb he)⟩
  · rintro ⟨⟨l, hl, rfl⟩, hne⟩
    exact ⟨l, Finset.mem_erase.2 ⟨fun he => hne (congrArg p.tiers.offset he), hl⟩, rfl⟩

namespace Sound

theorem answers_same (h : p.Sound live F) {c : Call} {reply : Reply}
    (hh : heldAfter (p.spans live) c reply = p.spans live)
    (hr : ∀ address, reply ≠ .address (some address)) : p.Answers live c reply p live where
  sound := ⟨F, h⟩
  keeps := .refl ..
  held_eq := hh.symm
  served := fun address _ he => absurd he (hr address)

theorem answers_acquired (hq : q.Sound (insert b live) G) (hv : b.Vacant live)
    (hk : p.Keeps q live) {c : Call} {size : Nat} (he : p.tiers.extent b.tier = sizeClass size)
    (hh : heldAfter (p.spans live) c (.address (some (p.tiers.offset b))) =
      insert ⟨p.tiers.offset b, sizeClass size⟩ (p.spans live))
    (hc : c.request? = some size) :
    p.Answers live c (.address (some (p.tiers.offset b))) q (insert b live) where
  sound := ⟨G, hq⟩
  keeps := hk.mono Finset.inter_subset_left
  held_eq := by
    rw [hh, spans_insert, ← he]
    rfl
  served := by
    rintro address n ⟨⟩ hn
    rw [hc, Option.some.injEq] at hn
    subst hn
    have hle : size ≤ p.tiers.extent b.tier := he ▸ (Tiers.sizeClass_isLeast size).1.2
    exact ⟨b, Finset.mem_insert_self b live, rfl, hle, fun _ => he, fun _ => hv⟩

theorem answers_released (h : p.Sound live F) (hb : b ∈ live) (hq : q.Sound (live.erase b) G)
    (hk : p.Keeps q (live.erase b)) {c : Call} {reply : Reply}
    (hh : heldAfter (p.spans live) c reply =
      (p.spans live).filter (·.start ≠ p.tiers.offset b))
    (hr : ∀ address, reply ≠ .address (some address)) :
    p.Answers live c reply q (live.erase b) where
  sound := ⟨G, hq⟩
  keeps := hk.mono Finset.inter_subset_right
  held_eq := by rw [hh, h.spans_erase hb]
  served := fun address _ he => absurd he (hr address)

theorem settled_alloc (h : p.Sound live F) {c : Call} {size : Nat}
    (hrun : c.run p = (Reply.address <$> alloc size : Op Buddy Reply) p)
    (hn : heldAfter (p.spans live) c (.address none) = p.spans live)
    (hs : ∀ a, heldAfter (p.spans live) c (.address (some a)) =
      insert ⟨a, sizeClass size⟩ (p.spans live))
    (hc : c.request? = some size) : p.Settled live c := by
  obtain ⟨ha, -⟩ | ⟨b, q, G, ha, hq, hv, hk, -, -, he⟩ := h.alloc_cases size
  · refine .inl ⟨.address none, p, live, ?_, h.answers_same hn fun _ he => nomatch he⟩
    rw [hrun, Op.map_apply, ha]
  · refine .inl ⟨_, q, _, ?_, answers_acquired hq hv hk he (hs _) hc⟩
    rw [hrun, Op.map_apply, ha]

theorem settled_calloc (h : p.Sound live F) (count size : Nat) :
    p.Settled live (.calloc count size) := by
  have hrun : (Call.calloc count size).run p =
      (Reply.address <$> Allocator.calloc count size : Op Buddy Reply) p := rfl
  obtain ha | ⟨b, q, G, ha, hq, hv, hk, he⟩ := h.calloc_cases count size
  · refine .inl ⟨.address none, p, live, ?_, h.answers_same rfl fun _ he => nomatch he⟩
    rw [hrun, Op.map_apply, ha]
  · refine .inl ⟨_, q, _, ?_, answers_acquired hq hv hk he rfl rfl⟩
    rw [hrun, Op.map_apply, ha]

theorem refuses (h : p.Sound live F) {c : Call} {address : Nat} (hc : c.pointer? = some address)
    (ha : ∀ b ∈ live, p.tiers.offset b ≠ address) : ∃ cause, c.run p = .error cause p := by
  cases c with
  | alloc _ => cases hc
  | calloc _ _ => cases hc
  | reset => cases hc
  | free a =>
    cases hc
    obtain ⟨cause, hf⟩ := h.free_error ha
    exact ⟨cause, Op.bind_error _ hf⟩
  | dealloc a hint =>
    cases hc
    obtain ⟨cause, hf⟩ := h.dealloc_error ha hint
    exact ⟨cause, Op.bind_error _ hf⟩
  | realloc a size =>
    cases a with
    | none => cases hc
    | some a =>
      cases hc
      have hrun : (Call.realloc (some address) size).run p =
          (Reply.address <$> realloc (some address) size : Op Buddy Reply) p := rfl
      cases size with
      | zero =>
        have hz : realloc (some address) 0 =
            (do free address; return none : Op Buddy (Option Address)) := rfl
        obtain ⟨cause, hf⟩ := h.free_error ha
        rw [hrun, hz, Op.map_apply, Op.bind_error _ hf]
        exact ⟨cause, rfl⟩
      | succ n =>
        have hm : realloc (some address) (n + 1) = resize address (n + 1) := rfl
        obtain ⟨cause, hf⟩ := h.resize_error ha (n + 1)
        rw [hrun, hm, Op.map_apply, hf]
        exact ⟨cause, rfl⟩

theorem settled_refused (h : p.Sound live F) {c : Call} {address : Nat}
    (hc : c.pointer? = some address) (hb : ¬ ∃ b ∈ live, p.tiers.offset b = address) :
    p.Settled live c := by
  have ha : ∀ b ∈ live, p.tiers.offset b ≠ address := fun b hbl he => hb ⟨b, hbl, he⟩
  obtain ⟨cause, he⟩ := h.refuses hc ha
  exact .inr ⟨cause, address, he, hc, ha⟩

theorem settled_free (h : p.Sound live F) {c : Call} {address : Nat} {release : Op Buddy Unit}
    (hrun : c.run p = (do release; return .done : Op Buddy Reply) p)
    (hrelease : ∀ b ∈ live, p.tiers.offset b = address → release p = free address p)
    (hh : heldAfter (p.spans live) c .done = (p.spans live).filter (·.start ≠ address))
    (hc : c.pointer? = some address) : p.Settled live c := by
  by_cases hb : ∃ b ∈ live, p.tiers.offset b = address
  · obtain ⟨b, hb, rfl⟩ := hb
    obtain ⟨q, G, hf, hq, hk⟩ := h.free_ok hb
    refine .inl ⟨.done, q, _, ?_, h.answers_released hb hq hk hh fun _ he => nomatch he⟩
    rw [hrun, Op.bind_ok _ ((hrelease b hb rfl).trans hf), Op.pure_apply]
  · exact h.settled_refused hc hb

theorem answers_moved (h : p.Sound live F) (hb : b ∈ live) {c : Block} {n : Nat}
    (hq : q.Sound ((insert c live).erase b) G) (hv : c.Vacant live)
    (hk : p.Keeps q (live.erase b)) (he : p.tiers.extent c.tier = sizeClass (n + 1)) :
    p.Answers live (.realloc (some (p.tiers.offset b)) (n + 1))
      (.address (some (p.tiers.offset c))) q ((insert c live).erase b) := by
  have hcl : c ∉ live := fun hcl => hv c hcl (.refl c)
  have hcb : c ≠ b := fun hcb => hcl (hcb ▸ hb)
  have hcm : c ∈ (insert c live).erase b :=
    Finset.mem_erase.2 ⟨hcb, Finset.mem_insert_self c live⟩
  have hct : c.tier < p.tiers.count := hk.tiers ▸ (hq.live_holds c hcm).1
  have hne : p.tiers.offset c ≠ p.tiers.offset b := (h.offset_ne_of_vacant hct hv hb).symm
  refine ⟨⟨G, hq⟩, hk.mono ?_, ?_, ?_⟩
  · intro l hl
    obtain ⟨hl, hl'⟩ := Finset.mem_inter.1 hl
    exact Finset.mem_erase.2 ⟨(Finset.mem_erase.1 hl').1, hl⟩
  · have hset : (insert c live).erase b = insert c (live.erase b) :=
      Finset.erase_insert_of_ne hcb
    have hafter : heldAfter (p.spans live) (.realloc (some (p.tiers.offset b)) (n + 1))
        (.address (some (p.tiers.offset c))) = insert ⟨p.tiers.offset c, sizeClass (n + 1)⟩
          ((p.spans live).filter (·.start ≠ p.tiers.offset b)) := if_neg hne
    rw [hset, spans_insert, h.spans_erase hb, hafter, ← he]
    rfl
  · rintro a m ⟨⟩ ⟨⟩
    exact ⟨c, hcm, rfl, he ▸ (Tiers.sizeClass_isLeast (n + 1)).1.2, fun _ => he, fun _ => hv⟩

theorem settled_realloc (h : p.Sound live F) (address size : Nat) :
    p.Settled live (.realloc (some address) size) := by
  have hrun : (Call.realloc (some address) size).run p =
      (Reply.address <$> realloc (some address) size : Op Buddy Reply) p := rfl
  by_cases hb : ∃ b ∈ live, p.tiers.offset b = address
  · obtain ⟨b, hb, rfl⟩ := hb
    cases size with
    | zero =>
      have hz : realloc (some (p.tiers.offset b)) 0 =
          (do free (p.tiers.offset b); return none : Op Buddy (Option Address)) := rfl
      obtain ⟨q, G, hf, hq, hk⟩ := h.free_ok hb
      refine .inl ⟨.address none, q, _, ?_, h.answers_released hb hq hk rfl fun _ he => nomatch he⟩
      rw [hrun, hz, Op.map_apply, Op.bind_ok _ hf, Op.pure_apply]
    | succ n =>
      have hm : realloc (some (p.tiers.offset b)) (n + 1) = resize (p.tiers.offset b) (n + 1) := rfl
      obtain hf | ⟨hf, hle⟩ | ⟨c, q, G, hf, hq, hv, hk, he⟩ := h.resize_cases hb (n + 1)
      · refine .inl ⟨.address none, p, live, ?_, h.answers_same rfl fun _ he => nomatch he⟩
        rw [hrun, hm, Op.map_apply, hf]
      · refine .inl ⟨.address (some (p.tiers.offset b)), p, live, ?_, ⟨F, h⟩, .refl .., ?_, ?_⟩
        · rw [hrun, hm, Op.map_apply, hf]
        · exact (if_pos rfl).symm
        · rintro a m ⟨⟩ ⟨⟩
          refine ⟨b, hb, rfl, hle, fun hn => absurd rfl (hn (p.tiers.offset b)), ?_⟩
          exact fun hn => absurd rfl hn
      · refine .inl ⟨_, q, _, ?_, h.answers_moved hb hq hv hk he⟩
        rw [hrun, hm, Op.map_apply, hf]
  · exact h.settled_refused rfl hb

theorem settled_reset (h : p.Sound live F) : p.Settled live .reset := by
  let q : Buddy := { p with peak := 0 }
  have hq : q.Sound live F := ⟨h.congr rfl rfl rfl rfl fun _ _ => rfl, h.used_eq⟩
  exact .inl ⟨.peak p.peak, q, live, rfl, ⟨F, hq⟩, ⟨rfl, rfl, fun _ _ _ _ => rfl⟩, rfl,
    fun _ _ he => nomatch he⟩

theorem settled (h : p.Sound live F) (c : Call) : p.Settled live c := by
  cases c with
  | alloc size => exact h.settled_alloc rfl rfl (fun _ => rfl) rfl
  | calloc count size => exact h.settled_calloc count size
  | realloc address size =>
    cases address with
    | none => exact h.settled_alloc rfl rfl (fun _ => rfl) rfl
    | some address => exact h.settled_realloc address size
  | free address => exact h.settled_free rfl (fun _ _ _ => rfl) rfl rfl
  | dealloc address hint =>
    apply h.settled_free rfl _ rfl rfl
    rintro b hb rfl
    exact h.dealloc_eq hb hint
  | reset => exact h.settled_reset

/-- A call that fails changes nothing. -/
theorem eq_of_error (h : p.Sound live F) {c : Call} {cause : Fault}
    (hrun : c.run p = .error cause q) : q = p := by
  obtain ⟨reply, q', live', he, -⟩ | ⟨cause', address, he, -⟩ := h.settled c
  · rw [hrun] at he
    cases he
  · rw [hrun] at he
    cases he
    rfl

end Sound

/-! ### Runs -/

theorem Reachable.sound (h : Reachable host request p held) :
    ∃ live F, p.Sound live F ∧ held = p.spans live := by
  induction h with
  | created hc =>
    obtain ⟨F, hs, -⟩ := sound_of_create hc
    exact ⟨∅, F, hs, rfl⟩
  | returned c _ hrun ih =>
    obtain ⟨live, F, hs, rfl⟩ := ih
    obtain ⟨reply, q, live', he, ha⟩ | ⟨cause, address, he, -⟩ := hs.settled c
    · rw [hrun] at he
      cases he
      obtain ⟨G, hq⟩ := ha.sound
      refine ⟨live', G, hq, ?_⟩
      rw [← ha.held_eq, spans, spans, ha.keeps.tiers]
    · rw [hrun] at he
      cases he
  | faulted c _ hrun ih =>
    obtain ⟨live, F, hs, rfl⟩ := ih
    obtain rfl := hs.eq_of_error hrun
    exact ⟨live, F, hs, rfl⟩
  | stored v _ hm ho ih =>
    obtain ⟨live, F, hs, rfl⟩ := ih
    obtain ⟨b, hb, rfl⟩ := mem_spans.1 hm
    exact ⟨live, F, hs.stored hb ho v, rfl⟩

end FixedPool.Buddy
