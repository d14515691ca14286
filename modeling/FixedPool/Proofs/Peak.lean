import FixedPool.Proofs.Buddy.Outcome
import FixedPool.Proofs.Linear.Outcome

/-!
The peak of a pool is told by its journal. In a buddy pool it is the most that was in use right after
a block was handed out, in a linear pool the most that was in use after any call.
-/

namespace FixedPool

variable {σ η : Type} [Allocator σ]

/-- The highest of the levels that the calls since the last reset reached, and zero if none did. -/
def highest (level : Entry → Option Nat) : List Entry → Nat
  | [] => 0
  | e :: journal =>
    if e.call = .reset then 0 else max ((level e).getD 0) (highest level journal)

/-- The peak is the highest level that the journal tells of. A reset answers it and sets it to zero, a
release keeps it, and it lies between the bytes in use and the capacity, the former as long as there
was no reset. -/
structure Peaks (T : Tenure η) (level : Entry → Option Nat) (journal : List Entry) (s : σ)
    (held : η) : Prop where
  peak_eq : Allocator.peak s = highest level journal
  reset : ∃ t, (Allocator.reset : Op σ Nat) s = .ok (Allocator.peak s) t ∧ Allocator.peak t = 0
  release : ∀ address, T.Held held address → ∃ t,
    (Allocator.free address : Op σ Unit) s = .ok () t ∧
    (∀ hint, (Allocator.dealloc address hint : Op σ Unit) s = .ok () t) ∧
    (Allocator.realloc (some address) 0 : Op σ (Option Address)) s = .ok none t ∧
    Allocator.peak t = Allocator.peak s
  peak_le : Allocator.peak s ≤ Allocator.capacity s
  used_le : (∀ e ∈ journal, e.call ≠ .reset) → Allocator.used s ≤ Allocator.peak s

/-- A step that brings the bytes in use up to a level, or to none, raises the peak to it. -/
structure Climbs (s : σ) (level : Option Nat) (t : σ) : Prop where
  capacity_eq : Allocator.capacity t = Allocator.capacity s
  peak_eq : Allocator.peak t = max (level.getD 0) (Allocator.peak s)
  used_le : Allocator.used t ≤ max (level.getD 0) (Allocator.used s)
  level_le : level.getD 0 ≤ Allocator.capacity s

/-- An invariant of the runs of a pool under which its calls raise the peak to their levels. -/
structure Accounts (T : Tenure η) (level : Entry → Option Nat) (Inv : σ → η → Prop) : Prop where
  call : ∀ {s t held c reply}, Inv s held → T.Admits held c → c.run s = .ok reply t →
    Inv t (T.after held c reply)
  climbs : ∀ {s t held c reply before after}, Inv s held → T.Admits held c →
    c.run s = .ok reply t → c ≠ .reset → before.used = Allocator.used s →
    after.used = Allocator.used t → Climbs s (level ⟨c, reply, before, after⟩) t
  store : ∀ {s held offset} (v : UInt8), Inv s held → T.Owns held offset →
    Inv (Allocator.mapRegion (·.setByte offset v) s) held ∧
    Climbs s none (Allocator.mapRegion (·.setByte offset v) s)
  reset : ∀ s, ∃ t, (Allocator.reset : Op σ Nat) s = .ok (Allocator.peak s) t ∧ Allocator.peak t = 0
  release : ∀ {s held address}, Inv s held → T.Held held address → ∃ t,
    (Allocator.free address : Op σ Unit) s = .ok () t ∧
    (∀ hint, (Allocator.dealloc address hint : Op σ Unit) s = .ok () t) ∧
    (Allocator.realloc (some address) 0 : Op σ (Option Address)) s = .ok none t ∧
    Allocator.peak t = Allocator.peak s

theorem climbs_none {s t : σ} (hc : Allocator.capacity t = Allocator.capacity s)
    (hk : Allocator.peak t = Allocator.peak s) (hu : Allocator.used t ≤ Allocator.used s) :
    Climbs s none t where
  capacity_eq := hc
  peak_eq := hk.trans (Nat.zero_max _).symm
  used_le := Nat.le_trans hu (Nat.le_max_right ..)
  level_le := Nat.zero_le _

namespace Accounts

variable {T : Tenure η} {level : Entry → Option Nat} {Inv : σ → η → Prop} {s t s₀ : σ}
  {held held₀ : η} {journal : List Entry} {reply : Reply} {n : Option Nat}

theorem peak_of_reset (hA : Accounts T level Inv) (hrun : Call.reset.run s = .ok reply t) :
    Allocator.peak t = 0 := by
  obtain ⟨t', ht, hk⟩ := hA.reset s
  have hrun' : Call.reset.run s = .ok (.peak (Allocator.peak s)) t' := Op.map_ok _ ht
  rw [hrun] at hrun'
  cases hrun'
  exact hk

theorem runs (hA : Accounts T level Inv) (h₀ : Inv s₀ held₀) (hk : Allocator.peak s₀ = 0)
    (hu : Allocator.used s₀ = 0) (hr : Runs T s₀ held₀ journal s held) :
    Inv s held ∧ Allocator.peak s = highest level journal ∧
      Allocator.peak s ≤ Allocator.capacity s ∧
      ((∀ e ∈ journal, e.call ≠ .reset) → Allocator.used s ≤ Allocator.peak s) := by
  induction hr with
  | start => exact ⟨h₀, hk, hk.trans_le (Nat.zero_le _), fun _ => hu.trans_le (Nat.zero_le _)⟩
  | answered c _ hc hrun hb ha ih =>
    obtain ⟨hi, hpeak, hle, hused⟩ := ih
    refine ⟨hA.call hi hc hrun, ?_⟩
    by_cases hreset : c = .reset
    · subst hreset
      have hz := hA.peak_of_reset hrun
      refine ⟨hz.trans (if_pos rfl).symm, hz.trans_le (Nat.zero_le _), ?_⟩
      intro hn
      exact absurd rfl (hn _ List.mem_cons_self)
    · have hcl := hA.climbs hi hc hrun hreset (Allocator.used_of_stats hb)
        (Allocator.used_of_stats ha)
      rw [highest, if_neg hreset, hcl.peak_eq, hcl.capacity_eq, hpeak]
      refine ⟨rfl, Nat.max_le.2 ⟨hcl.level_le, hpeak ▸ hle⟩, ?_⟩
      intro hn
      have hbelow := hused fun e he => hn e (List.mem_cons_of_mem _ he)
      rw [hpeak] at hbelow
      exact Nat.le_trans hcl.used_le (max_le_max_left _ hbelow)
  | stored v _ ho ih =>
    obtain ⟨hi, hpeak, hle, hused⟩ := ih
    obtain ⟨hi, hcl⟩ := hA.store v hi ho
    have hk := hcl.peak_eq.trans (Nat.zero_max _)
    have hu := hcl.used_le.trans_eq (Nat.zero_max _)
    rw [hk, hcl.capacity_eq]
    exact ⟨hi, hpeak, hle, fun hn => Nat.le_trans hu (hused hn)⟩

theorem peaks (hA : Accounts T level Inv) (h₀ : Inv s₀ held₀) (hk : Allocator.peak s₀ = 0)
    (hu : Allocator.used s₀ = 0) (hr : Runs T s₀ held₀ journal s held) :
    Peaks T level journal s held := by
  obtain ⟨hi, hpeak, hle, hused⟩ := hA.runs h₀ hk hu hr
  exact ⟨hpeak, hA.reset s, fun address ha => hA.release hi ha, hle, hused⟩

end Accounts

/-! ### Buddy pools -/

namespace Buddy

/-- The bytes in use right after a call had a block handed out, if it had. While a block moves, both
the old one and the new one are in use. -/
def acquired (e : Entry) : Option Nat :=
  match e.reply with
  | .address (some address) =>
    match e.call with
    | .realloc (some old) size =>
      if address = old then none else some (e.before.used + sizeClass size)
    | _ => some e.after.used
  | _ => none

variable {p q : Buddy} {S S' : Sketch} {c : Call} {reply : Reply} {before after : Stats}
  {b b' : Block} {G : FreeLists} {held : Finset Span} {address old size : Nat}

theorem acquired_of_new (hp : c.pointer? = none) :
    acquired ⟨c, .address (some address), before, after⟩ = some after.used := by
  cases c with
  | alloc => rfl
  | calloc => rfl
  | realloc old size =>
    cases old with
    | none => rfl
    | some old => cases hp
  | free => cases hp
  | dealloc => cases hp
  | reset => rfl

theorem acquired_of_kept :
    acquired ⟨.realloc (some old) size, .address (some old), before, after⟩ = none :=
  if_pos rfl

theorem acquired_of_moved (hne : address ≠ old) :
    acquired ⟨.realloc (some old) size, .address (some address), before, after⟩ =
      some (before.used + sizeClass size) :=
  if_neg hne

namespace Shows

theorem climbs_same (h : p.Shows S) (hq : q.Shows S) (ht : q.tiers = p.tiers) :
    Climbs p none q := by
  apply climbs_none
  · exact congrArg Tiers.capacity ht
  · exact hq.peak_eq.trans h.peak_eq.symm
  · change q.used ≤ p.used
    rw [hq.used_eq, h.used_eq, ht]

theorem climbs_retire (h : p.Shows S) (hq : q.Shows (S.retire b)) (ht : q.tiers = p.tiers) :
    Climbs p none q := by
  apply climbs_none
  · exact congrArg Tiers.capacity ht
  · exact hq.peak_eq.trans h.peak_eq.symm
  · change q.used ≤ p.used
    rw [hq.used_eq, h.used_eq, ht]
    exact Finset.sum_le_sum_of_subset (Finset.erase_subset b S.live)

theorem climbs_acquire (h : p.Shows S) (hq : q.Shows (S.acquire p.tiers b G))
    (ht : q.tiers = p.tiers) : Climbs p (some q.used) q where
  capacity_eq := congrArg Tiers.capacity ht
  peak_eq := by
    change q.peak = max q.used p.peak
    rw [hq.peak_eq, hq.used_eq, ht, h.peak_eq, Nat.max_comm]
    rfl
  used_le := Nat.le_max_left ..
  level_le := by
    change q.used ≤ p.tiers.capacity
    rw [← ht]
    exact hq.used_le

theorem climbs_move (h : p.Shows S) (hs : S.lists.served p.tiers size = some (b', G))
    (hq : q.Shows ((S.acquire p.tiers b' G).retire b)) (ht : q.tiers = p.tiers) :
    Climbs p (some (p.used + sizeClass size)) q := by
  obtain ⟨m, -, ha⟩ := h.alloc_of_served hs
  rw [← ha.used_eq h.toSound]
  have hm := h.climbs_acquire (ha.shows h.peak_eq) ha.keeps.tiers
  have hr := (ha.shows h.peak_eq).climbs_retire hq (ht.trans ha.keeps.tiers.symm)
  refine ⟨hr.capacity_eq.trans hm.capacity_eq, ?_, ?_, hm.level_le⟩
  · exact hr.peak_eq.trans ((Nat.zero_max _).trans hm.peak_eq)
  · exact Nat.le_trans (hr.used_le.trans_eq (Nat.zero_max _)) (Nat.le_max_left ..)

theorem climbs (h : p.Shows S) (ho : Outcome p.tiers S c reply S') (hq : q.Shows S')
    (ht : q.tiers = p.tiers) (hc : c ≠ .reset) (hb : before.used = p.used)
    (ha : after.used = q.used) : Climbs p (acquired ⟨c, reply, before, after⟩) q := by
  cases ho with
  | declined _ _ _ => exact h.climbs_same hq ht
  | served hp _ _ =>
    rw [acquired_of_new hp, ha]
    exact h.climbs_acquire hq ht
  | outgrown _ _ _ => exact h.climbs_same hq ht
  | kept _ _ _ _ =>
    rw [acquired_of_kept]
    exact h.climbs_same hq ht
  | moved hm _ _ hs =>
    obtain ⟨m, -, hacq⟩ := h.alloc_of_served hs
    rw [acquired_of_moved (hacq.offset_ne hm), hb]
    exact h.climbs_move hs hq ht
  | emptied _ => exact h.climbs_retire hq ht
  | released _ _ _ => exact h.climbs_retire hq ht
  | restarted => exact absurd rfl hc

theorem release (h : p.Shows S) (hb : b ∈ S.live) : ∃ q, free (p.tiers.offset b) p = .ok () q ∧
    (∀ hint, dealloc (p.tiers.offset b) hint p = .ok () q) ∧
    realloc (some (p.tiers.offset b)) 0 p = .ok none q ∧ q.peak = p.peak := by
  obtain ⟨q, hq, -, -, hk⟩ := h.free_coalesced hb
  exact ⟨q, hq, fun hint => (h.dealloc_eq hb hint).trans hq, Op.bind_ok _ hq, hk⟩

end Shows

theorem accounts : Accounts tenure acquired fun (p : Buddy) held =>
    ∃ S, p.Shows S ∧ held = p.spans S.live where
  call := by
    rintro p q _ c reply ⟨S, h, rfl⟩ hc hrun
    obtain ⟨S', -, hq, -⟩ := h.outcome hc hrun
    exact ⟨S', hq, h.held_after hrun hq.toSound⟩
  climbs := by
    rintro p q _ c reply before after ⟨S, h, rfl⟩ hc hrun hreset hb ha
    obtain ⟨S', ho, hq, ht⟩ := h.outcome hc hrun
    exact h.climbs ho hq ht hreset hb ha
  store := by
    rintro p _ offset v ⟨S, h, rfl⟩ ⟨s, hs, ho⟩
    obtain ⟨b, hb, rfl⟩ := mem_spans.1 hs
    exact ⟨⟨S, ⟨h.stored hb ho v, h.peak_eq⟩, rfl⟩, climbs_none rfl rfl (Nat.le_refl _)⟩
  reset := fun p => ⟨_, rfl, rfl⟩
  release := by
    rintro p _ address ⟨S, h, rfl⟩ ha
    obtain ⟨b, hb, rfl⟩ := exists_mem_spans.1 ha
    exact h.release hb

end Buddy

/-! ### Linear pools -/

namespace Linear

theorem accounts : Accounts tenure (fun e => some e.after.used) Steady where
  call := by
    intro p q leases c reply h hc hrun
    exact (h.of_run hc hrun).1
  climbs := by
    intro p q leases c reply before after h hc hrun hreset _ ha
    obtain ⟨hq, hs, hk⟩ := h.of_run hc hrun
    obtain ⟨cells, hqc⟩ := hq.chained
    rw [if_neg hreset, Nat.max_comm] at hk
    rw [ha]
    exact ⟨hs, hk, Nat.le_max_left .., hqc.cursor_le.trans_eq hs⟩
  store := by
    intro p leases offset v h ho
    exact ⟨h.stored ho v, climbs_none (Region.size_setByte ..) rfl (Nat.le_refl _)⟩
  reset := fun p => ⟨_, rfl, rfl⟩
  release := by
    intro p leases address h ha
    obtain ⟨cells, hp⟩ := h.chained
    obtain ⟨q, hq⟩ := hp.free_held h.trim ha
    obtain ⟨-, hk⟩ := hp.of_free hq
    exact ⟨q, hq, fun _ => hq, Op.bind_ok _ hq, hk⟩

end Linear

/-! ### Both pools -/

theorem tracks_peak (host : Host) (request : Nat) :
    (∀ p₀ journal p held, Buddy.create host request = .ok p₀ →
      Runs Buddy.tenure p₀ ∅ journal p held → Peaks Buddy.tenure Buddy.acquired journal p held) ∧
    ∀ p₀ journal p leases, Linear.create host request = .ok p₀ →
      Runs Linear.tenure p₀ (fun _ => none) journal p leases →
      Peaks Linear.tenure (fun e => some e.after.used) journal p leases := by
  constructor
  · intro p₀ journal p held hp₀ hr
    obtain ⟨F, hs, hk⟩ := Buddy.sound_of_create hp₀
    exact Buddy.accounts.peaks ⟨⟨∅, F, 0⟩, ⟨hs, hk⟩, rfl⟩ hk hs.used_eq hr
  · intro p₀ journal p leases hp₀ hr
    obtain ⟨-, hp, hk⟩ := Linear.chained_of_create hp₀
    obtain ⟨-, hc⟩ := hp.chain
    exact Linear.accounts.peaks (Linear.steady_of_create hp₀) hk hc hr

/-- A quarter of 64 bytes moves to a half, which are in use together before the quarter is released;
and a cell comes and goes. -/
theorem tracks_peak_moving :
    (∃ (p₀ p : Buddy) (e e' : Entry) (held : Finset Span), Buddy.create ⟨fun _ => true⟩ 64 = .ok p₀ ∧
      Runs Buddy.tenure p₀ ∅ [e', e] p held ∧ e'.after.used = 32 ∧ p.peak = 48 ∧
      Peaks Buddy.tenure Buddy.acquired [e', e] p held) ∧
    ∃ (p₀ p : Linear) (e e' : Entry) (leases : Linear.Leases),
      Linear.create ⟨fun _ => true⟩ 64 = .ok p₀ ∧
      Runs Linear.tenure p₀ (fun _ => none) [e', e] p leases ∧ e'.after.used = 0 ∧ p.peak = 24 ∧
      Peaks Linear.tenure (fun e => some e.after.used) [e', e] p leases := by
  obtain ⟨hbuddy, hlinear⟩ := tracks_peak ⟨fun _ => true⟩ 64
  constructor
  · have hrun : ∃ p₀ p, Buddy.create ⟨fun _ => true⟩ 64 = .ok p₀ ∧
        (do return (← record (.alloc 10), ← record (.realloc (some 0) 20)) :
          Op Buddy (Entry × Entry)) p₀ =
        .ok (⟨.alloc 10, .address (some 0), ⟨64, 64, 0, 0⟩, ⟨64, 32, 16, 16⟩⟩,
          ⟨.realloc (some 0) 20, .address (some 32), ⟨64, 32, 16, 16⟩, ⟨64, 32, 32, 48⟩⟩) p :=
      Op.exists_of_answerFrom (by decide +kernel)
    obtain ⟨p₀, q, hp₀, hq⟩ := hrun
    simp only [Op.bind_eq_ok, Op.pure_apply, EStateM.Result.ok.injEq, Prod.mk.injEq] at hq
    obtain ⟨_, p, h₁, _, q, h₂, ⟨rfl, rfl⟩, rfl⟩ := hq
    have hr : Runs Buddy.tenure p₀ ∅ [] p₀ ∅ := .start
    have hr := (hr.recorded h₁ nofun).recorded h₂ (by
      rintro _ ⟨⟩
      exact ⟨⟨0, 16⟩, by decide, rfl⟩)
    have hpeaks := hbuddy p₀ _ q _ hp₀ hr
    exact ⟨p₀, q, _, _, _, hp₀, hr, rfl, hpeaks.peak_eq.trans (by decide), hpeaks⟩
  · have hrun : ∃ p₀ p, Linear.create ⟨fun _ => true⟩ 64 = .ok p₀ ∧
        (do return (← record (.alloc 10), ← record (.free 8)) : Op Linear (Entry × Entry)) p₀ =
        .ok (⟨.alloc 10, .address (some 8), ⟨64, 56, 0, 0⟩, ⟨64, 32, 24, 24⟩⟩,
          ⟨.free 8, .done, ⟨64, 32, 24, 24⟩, ⟨64, 56, 0, 24⟩⟩) p :=
      Op.exists_of_answerFrom (by decide +kernel)
    obtain ⟨p₀, q, hp₀, hq⟩ := hrun
    simp only [Op.bind_eq_ok, Op.pure_apply, EStateM.Result.ok.injEq, Prod.mk.injEq] at hq
    obtain ⟨_, p, h₁, _, q, h₂, ⟨rfl, rfl⟩, rfl⟩ := hq
    have hr : Runs Linear.tenure p₀ (fun _ => none) [] p₀ fun _ => none := .start
    have hr := (hr.recorded h₁ nofun).recorded h₂ (by
      rintro _ ⟨⟩
      exact ⟨0, 10, rfl, rfl⟩)
    have hpeaks := hlinear p₀ _ q _ hp₀ hr
    exact ⟨p₀, q, _, _, _, hp₀, hr, rfl, hpeaks.peak_eq.trans (by decide), hpeaks⟩

end FixedPool
