import FixedPool.Proofs.Buddy.History
import FixedPool.Proofs.Journal

/-!
A buddy pool as a machine that knows its live blocks, its free lists and its peak, but none of its
bytes. Every call on held addresses is a step of that machine, which tells the answer.
-/

namespace FixedPool

namespace Buddy

def tenure : Tenure (Finset Span) where
  after := heldAfter
  Held held address := ∃ s ∈ held, s.start = address
  Owns held offset := ∃ s ∈ held, s.Has offset

/-- What the answers of a pool depend on besides its tiers. -/
structure Sketch where
  live : Finset Block
  lists : FreeLists
  peak : Nat

def Sketch.acquire (S : Sketch) (t : Tiers) (b : Block) (lists : FreeLists) : Sketch :=
  ⟨insert b S.live, lists, max S.peak (∑ l ∈ insert b S.live, t.extent l.tier)⟩

def Sketch.retire (S : Sketch) (b : Block) : Sketch :=
  ⟨S.live.erase b, S.lists.coalesced b.tier b.index, S.peak⟩

set_option autoImplicit true in
/-- How a call on a held address, or on none, is answered, and what it leaves. -/
inductive Outcome (t : Tiers) (S : Sketch) : Call → Reply → Sketch → Prop
  | declined : c.pointer? = none → c.request? = some size → S.lists.served t size = none →
      Outcome t S c (.address none) S
  | served : c.pointer? = none → c.request? = some size → S.lists.served t size = some (b, G) →
      Outcome t S c (.address (some (t.offset b))) (S.acquire t b G)
  | outgrown : b ∈ S.live → t.extent b.tier < size → S.lists.served t size = none →
      Outcome t S (.realloc (some (t.offset b)) size) (.address none) S
  | kept : b ∈ S.live → size ≠ 0 → size ≤ t.extent b.tier →
      (t.Misfits b size → S.lists.served t size = none) →
      Outcome t S (.realloc (some (t.offset b)) size) (.address (some (t.offset b))) S
  | moved : b ∈ S.live → size ≠ 0 → t.Misfits b size → S.lists.served t size = some (c, G) →
      Outcome t S (.realloc (some (t.offset b)) size) (.address (some (t.offset c)))
        ((S.acquire t c G).retire b)
  | emptied : b ∈ S.live →
      Outcome t S (.realloc (some (t.offset b)) 0) (.address none) (S.retire b)
  | released : b ∈ S.live → c.request? = none → c.pointer? = some (t.offset b) →
      Outcome t S c .done (S.retire b)
  | restarted : Outcome t S .reset (.peak S.peak) { S with peak := 0 }

/-- A state has the live blocks, the lists and the peak of a sketch. -/
structure Shows (p : Buddy) (S : Sketch) : Prop extends p.Sound S.live S.lists where
  peak_eq : p.peak = S.peak

variable {p q : Buddy} {live live' : Finset Block} {F G : FreeLists} {S S' : Sketch} {t : Tiers}
  {b b' : Block} {size : Nat} {c : Call} {reply : Reply}

/-- Every call on held addresses has an outcome. -/
theorem exists_outcome (t : Tiers) (S : Sketch) (c : Call)
    (hc : ∀ address, c.pointer? = some address → ∃ b ∈ S.live, t.offset b = address) :
    ∃ reply S', Outcome t S c reply S' := by
  have hnew (c : Call) (size : Nat) (hp : c.pointer? = none) (hr : c.request? = some size) :
      ∃ reply S', Outcome t S c reply S' := by
    cases hs : S.lists.served t size with
    | none => exact ⟨_, _, .declined hp hr hs⟩
    | some found => exact ⟨_, _, .served hp hr hs⟩
  cases c with
  | alloc size => exact hnew _ size rfl rfl
  | calloc count size => exact hnew _ (count * size) rfl rfl
  | free address =>
    obtain ⟨b, hb, rfl⟩ := hc address rfl
    exact ⟨_, _, .released hb rfl rfl⟩
  | dealloc address hint =>
    obtain ⟨b, hb, rfl⟩ := hc address rfl
    exact ⟨_, _, .released hb rfl rfl⟩
  | reset => exact ⟨_, _, .restarted⟩
  | realloc address size =>
    cases address with
    | none => exact hnew _ size rfl rfl
    | some address =>
      obtain ⟨b, hb, rfl⟩ := hc address rfl
      obtain rfl | hn := eq_or_ne size 0
      · exact ⟨_, _, .emptied hb⟩
      cases hs : S.lists.served t size with
      | none =>
        by_cases hlt : t.extent b.tier < size
        · exact ⟨_, _, .outgrown hb hlt hs⟩
        · exact ⟨_, _, .kept hb hn (Nat.le_of_not_lt hlt) fun _ => hs⟩
      | some found =>
        by_cases hm : t.Misfits b size
        · exact ⟨_, _, .moved hb hn hm hs⟩
        · exact ⟨_, _, .kept hb hn (Nat.le_of_not_lt fun hlt => hm (.inl hlt)) fun h => absurd h hm⟩

/-! ### Steps of the machine -/

theorem Acquires.shows (h : p.Acquires S.live size b G q) (hp : p.peak = S.peak) :
    q.Shows (S.acquire p.tiers b G) := by
  refine ⟨h.sound, ?_⟩
  rw [h.peak_eq, h.sound.used_eq, h.keeps.tiers, hp]
  rfl

/-- A new block does not begin where a live one does. -/
theorem Acquires.offset_ne (h : p.Acquires live size b' G q) (hb : b ∈ live) :
    p.tiers.offset b' ≠ p.tiers.offset b := by
  intro ho
  rw [← h.keeps.tiers] at ho
  obtain rfl := h.sound.eq_of_offset (Finset.mem_insert_self b' live)
    (Finset.mem_insert_of_mem hb) ho
  exact h.vacant b' hb (.refl b')

/-- A block that is handed out for a request adds its size class to the bytes in use. -/
theorem Acquires.used_eq (h : p.Acquires live size b G q) (hp : p.Sound live F) :
    q.used = p.used + sizeClass size := by
  have hb : b ∉ live := fun hb => h.vacant b hb (.refl b)
  rw [h.sound.used_eq, h.keeps.tiers, Finset.sum_insert hb, h.extent_eq, hp.used_eq, Nat.add_comm]

namespace Sound

theorem run_of_not_served (h : p.Sound live F) (hp : c.pointer? = none)
    (hr : c.request? = some size) (hs : F.served p.tiers size = none) :
    c.run p = .ok (.address none) p := by
  cases c with
  | alloc n =>
    cases hr
    exact Op.map_ok _ (h.alloc_of_not_served hs)
  | calloc count n =>
    cases hr
    exact Op.map_ok _ (h.calloc_of_not_served hs)
  | realloc address n =>
    cases hr
    cases address with
    | none => exact Op.map_ok _ (h.alloc_of_not_served hs)
    | some address => cases hp
  | free _ => cases hp
  | dealloc _ _ => cases hp
  | reset => cases hr

theorem run_of_served (h : p.Sound live F) (hp : c.pointer? = none)
    (hr : c.request? = some size) (hs : F.served p.tiers size = some (b, G)) :
    ∃ q, c.run p = .ok (.address (some (p.tiers.offset b))) q ∧ p.Acquires live size b G q := by
  cases c with
  | alloc n =>
    cases hr
    obtain ⟨q, hq, ha⟩ := h.alloc_of_served hs
    exact ⟨q, Op.map_ok _ hq, ha⟩
  | calloc count n =>
    cases hr
    obtain ⟨q, hq, ha⟩ := h.calloc_of_served hs
    exact ⟨q, Op.map_ok _ hq, ha⟩
  | realloc address n =>
    cases hr
    cases address with
    | none =>
      obtain ⟨q, hq, ha⟩ := h.alloc_of_served hs
      exact ⟨q, Op.map_ok _ hq, ha⟩
    | some address => cases hp
  | free _ => cases hp
  | dealloc _ _ => cases hp
  | reset => cases hr

/-- A call that releases a block ends in the state that the release ends in. -/
theorem run_of_released (h : p.Sound live F) (hb : b ∈ live) (hr : c.request? = none)
    (hp : c.pointer? = some (p.tiers.offset b)) (hq : free (p.tiers.offset b) p = .ok () q) :
    c.run p = .ok .done q := by
  cases c with
  | free address =>
    cases hp
    exact Op.bind_ok _ hq
  | dealloc address hint =>
    cases hp
    exact Op.bind_ok _ ((h.dealloc_eq hb hint).trans hq)
  | alloc _ => cases hr
  | calloc _ _ => cases hr
  | realloc _ _ => cases hr
  | reset => cases hp

end Sound

theorem run_realloc (address : Address) (hn : size ≠ 0) (p : Buddy) :
    (Call.realloc (some address) size).run p =
      (Reply.address <$> resize address size : Op Buddy Reply) p := by
  have hr : realloc (some address) size = resize address size := if_neg hn
  exact congrArg (fun x : Op Buddy (Option Address) => (Reply.address <$> x) p) hr

theorem run_realloc_zero {address : Address} (hq : free address p = .ok () q) :
    (Call.realloc (some address) 0).run p = .ok (.address none) q :=
  Op.map_ok _ (Op.bind_ok _ hq)

/-- The pool follows the machine. -/
theorem Shows.run (h : p.Shows S) (ho : Outcome p.tiers S c reply S') :
    ∃ q, c.run p = .ok reply q ∧ q.Shows S' ∧ q.tiers = p.tiers := by
  cases ho with
  | declined hp hr hs => exact ⟨p, h.run_of_not_served hp hr hs, h, rfl⟩
  | served hp hr hs =>
    obtain ⟨q, hq, ha⟩ := h.run_of_served hp hr hs
    exact ⟨q, hq, ha.shows h.peak_eq, ha.keeps.tiers⟩
  | outgrown hb hlt hs =>
    refine ⟨p, ?_, h, rfl⟩
    rw [run_realloc _ (Nat.ne_of_gt (Nat.zero_lt_of_lt hlt))]
    exact Op.map_ok _ (h.resize_of_not_served hb hlt hs)
  | kept hb hn hle hm =>
    refine ⟨p, ?_, h, rfl⟩
    rw [run_realloc _ hn]
    exact Op.map_ok _ (h.resize_of_fits hb hle hm)
  | moved hb hn hm hs =>
    obtain ⟨m, q, ha, hq, hsq, hk, hpk, -⟩ := h.resize_of_served hb hm hs
    refine ⟨q, ?_, ⟨hsq, hpk.trans (ha.shows h.peak_eq).peak_eq⟩, hk.tiers⟩
    rw [run_realloc _ hn]
    exact Op.map_ok _ hq
  | emptied hb =>
    obtain ⟨q, hq, hsq, hk, hpk⟩ := h.free_coalesced hb
    exact ⟨q, run_realloc_zero hq, ⟨hsq, hpk.trans h.peak_eq⟩, hk.tiers⟩
  | released hb hr hp =>
    obtain ⟨q, hq, hsq, hk, hpk⟩ := h.free_coalesced hb
    exact ⟨q, h.run_of_released hb hr hp hq, ⟨hsq, hpk.trans h.peak_eq⟩, hk.tiers⟩
  | restarted =>
    have hq : Shows { p with peak := 0 } { S with peak := 0 } :=
      ⟨⟨h.congr rfl rfl rfl rfl fun _ _ => rfl, h.used_eq⟩, rfl⟩
    refine ⟨_, ?_, hq, rfl⟩
    rw [← h.peak_eq]
    rfl

theorem Shows.outcome (h : p.Shows S) (hc : tenure.Admits (p.spans S.live) c)
    (hrun : c.run p = .ok reply q) :
    ∃ S', Outcome p.tiers S c reply S' ∧ q.Shows S' ∧ q.tiers = p.tiers := by
  obtain ⟨reply', S', ho⟩ := exists_outcome p.tiers S c fun address ha =>
    exists_mem_spans.1 (hc address ha)
  obtain ⟨q', hq, hs, ht⟩ := h.run ho
  rw [hrun] at hq
  cases hq
  exact ⟨S', ho, hs, ht⟩

/-- The marks tell which blocks are live. -/
theorem Represents.live_unique (h : p.Represents live F) (h' : p.Represents live' G) :
    live = live' := by
  have hiff (b : Block) (hb : p.tiers.Holds b) : b ∈ live ↔ b ∈ live' := by
    have he := (h.isLive_ok hb).symm.trans (h'.isLive_ok hb)
    rwa [Except.ok.injEq, decide_eq_decide] at he
  ext b
  constructor
  · intro hb
    exact (hiff b (h.live_holds b hb)).1 hb
  · intro hb
    exact (hiff b (h'.live_holds b hb)).2 hb

/-- What callers hold by the answers are the live blocks. -/
theorem Sound.held_after (h : p.Sound live F) (hrun : c.run p = .ok reply q)
    (hq : q.Sound live' G) : heldAfter (p.spans live) c reply = q.spans live' := by
  obtain ⟨reply', q', live'', he, ha⟩ | ⟨cause, address, he, -⟩ := h.settled c
  · rw [hrun] at he
    cases he
    obtain ⟨G', hq'⟩ := ha.sound
    obtain rfl := hq.live_unique hq'.toRepresents
    rw [← ha.held_eq, spans, spans, ha.keeps.tiers]
  · rw [hrun] at he
    cases he

/-! ### Two pools side by side -/

/-- Two pools with the same tiers, live blocks, lists and peak, whatever bytes callers wrote. -/
def Alongside (p q : Buddy) (held : Finset Span) : Prop :=
  ∃ S, p.Shows S ∧ q.Shows S ∧ q.tiers = p.tiers ∧ held = p.spans S.live

namespace Alongside

variable {held : Finset Span} {offset : Nat}

theorem symm (h : p.Alongside q held) : q.Alongside p held := by
  obtain ⟨S, hp, hq, ht, rfl⟩ := h
  exact ⟨S, hq, hp, ht.symm, by rw [spans, spans, ht]⟩

theorem stats_eq (h : p.Alongside q held) :
    ∃ counts, Allocator.stats p = .ok counts ∧ Allocator.stats q = .ok counts := by
  obtain ⟨S, hp, hq, ht, -⟩ := h
  obtain ⟨n, hn, hn'⟩ := hp.available_eq hq.toRepresents ht
  refine ⟨_, Allocator.stats_ok hn, ?_⟩
  have hu : q.used = p.used := by rw [hq.used_eq, hp.used_eq, ht]
  have hk : q.peak = p.peak := hq.peak_eq.trans hp.peak_eq.symm
  rw [Allocator.stats_ok hn']
  change Except.ok (Stats.mk q.tiers.capacity n q.used q.peak) = _
  rw [ht, hu, hk]
  rfl

theorem run (h : p.Alongside q held) (c : Call) (hc : tenure.Admits held c) :
    ∃ reply p' q', c.run p = .ok reply p' ∧ c.run q = .ok reply q' ∧
      p'.Alongside q' (heldAfter held c reply) := by
  obtain ⟨S, hp, hq, ht, rfl⟩ := h
  obtain ⟨reply, S', ho⟩ := exists_outcome p.tiers S c fun address ha =>
    exists_mem_spans.1 (hc address ha)
  obtain ⟨p', hp', hps, hpt⟩ := hp.run ho
  obtain ⟨q', hq', hqs, hqt⟩ := hq.run (ht ▸ ho)
  refine ⟨reply, p', q', hp', hq', S', hps, hqs, ?_, hp.held_after hp' hps.toSound⟩
  rw [hqt, ht, hpt]

theorem store (h : p.Alongside q held) (ho : tenure.Owns held offset) (v : UInt8) :
    Alongside { p with region := p.region.setByte offset v } q held := by
  obtain ⟨S, hp, hq, ht, rfl⟩ := h
  obtain ⟨s, hs, ho⟩ := ho
  obtain ⟨b, hb, rfl⟩ := mem_spans.1 hs
  exact ⟨S, ⟨hp.stored hb ho v, hp.peak_eq⟩, hq, ht, rfl⟩

end Alongside

theorem lockstep : Lockstep tenure Alongside where
  symm := fun h => h.symm
  stats := fun h => h.stats_eq
  call := fun c h hc => h.run c hc
  store := fun v h ho => h.store ho v

end Buddy

end FixedPool
