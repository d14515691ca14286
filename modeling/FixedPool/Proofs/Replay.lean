import FixedPool.Proofs.Buddy.Nesting
import FixedPool.Proofs.Buddy.Outcome
import FixedPool.Proofs.Linear.Outcome

/-!
Runs that make the same calls. What callers write to the bytes that they hold makes no difference to
the answers of a pool, and neither does what a linear pool went through before it was reset.
-/

namespace FixedPool

/-! ### Written bytes -/

theorem Buddy.Alongside.agree {p q : Buddy} {held : Finset Span} (h : p.Alongside q held) :
    q.marks = p.marks ∧ q.heads = p.heads := by
  obtain ⟨S, hp, hq, ht, -⟩ := h
  exact ⟨hp.marks_eq hq.toRepresents ht, hp.heads_eq hq.toSound ht⟩

theorem ignores_written_bytes (host host' : Host) (request : Nat) :
    (∀ p q, Buddy.create host request = .ok p → Buddy.create host' request = .ok q →
      Indistinct Buddy.tenure (fun s t => t.marks = s.marks ∧ t.heads = s.heads) p q ∅) ∧
    ∀ p q, Linear.create host request = .ok p → Linear.create host' request = .ok q →
      Indistinct Linear.tenure (fun s t => t.cursor = s.cursor ∧ t.top = s.top) p q
        fun _ => none := by
  constructor
  · intro p q hp hq
    obtain ⟨F, hs, hk⟩ := Buddy.sound_of_create hp
    obtain rfl := Buddy.eq_of_create hp hq
    have h₀ : q.Shows ⟨∅, F, 0⟩ := ⟨hs, hk⟩
    exact Buddy.lockstep.indistinct ⟨_, h₀, h₀, rfl, rfl⟩ fun _ _ _ h => h.agree
  · intro p q hp hq
    obtain rfl := Linear.eq_of_create hp hq
    have h₀ := Linear.steady_of_create hp
    exact Linear.lockstep.indistinct ⟨h₀, h₀, rfl, rfl⟩ fun _ _ _ h => h.cursor_eq

/-- In pools of 64 bytes, two callers write different bytes to what they hold and then release it. -/
theorem ignores_written_bytes_released :
    (∃ (p₀ p : Buddy) (e : Entry) (held : Finset Span) (reply : Reply) (s t : Buddy)
      (counts : Stats), Buddy.create ⟨fun _ => true⟩ 64 = .ok p₀ ∧
      Runs Buddy.tenure p₀ ∅ [e] p held ∧ held = {⟨0, 16⟩} ∧
      (Call.free 0).run { p with region := p.region.setByte 12 7 } = .ok reply s ∧
      (Call.free 0).run { p with region := p.region.setByte 12 9 } = .ok reply t ∧
      Allocator.stats s = .ok counts ∧ Allocator.stats t = .ok counts) ∧
    ∃ (p₀ p : Linear) (e : Entry) (leases : Linear.Leases) (reply : Reply) (s t : Linear)
      (counts : Stats), Linear.create ⟨fun _ => true⟩ 64 = .ok p₀ ∧
      Runs Linear.tenure p₀ (fun _ => none) [e] p leases ∧ leases 0 = some ⟨10, false⟩ ∧
      (Call.free 8).run { p with region := p.region.setByte 12 7 } = .ok reply s ∧
      (Call.free 8).run { p with region := p.region.setByte 12 9 } = .ok reply t ∧
      Allocator.stats s = .ok counts ∧ Allocator.stats t = .ok counts := by
  obtain ⟨hbuddy, hlinear⟩ := ignores_written_bytes ⟨fun _ => true⟩ ⟨fun _ => true⟩ 64
  constructor
  · have hrun : ∃ p₀ p, Buddy.create ⟨fun _ => true⟩ 64 = .ok p₀ ∧
        (record (.alloc 10) : Op Buddy Entry) p₀ =
          .ok ⟨.alloc 10, .address (some 0), ⟨64, 64, 0, 0⟩, ⟨64, 32, 16, 16⟩⟩ p :=
      Op.exists_of_answerFrom (by decide +kernel)
    obtain ⟨p₀, p, hp₀, hp⟩ := hrun
    have h₀ : Runs Buddy.tenure p₀ ∅ [] p₀ ∅ := .start
    have h₁ := h₀.recorded hp nofun
    have ho : Buddy.tenure.Owns (Buddy.heldAfter ∅ (.alloc 10) (.address (some 0))) 12 :=
      ⟨⟨0, 16⟩, by decide, by decide⟩
    obtain ⟨-, -, -, hnext⟩ := hbuddy p₀ p₀ hp₀ hp₀ _ _ _ _ _ _ (h₁.stored 7 ho) (h₁.stored 9 ho)
      ⟨trivial, rfl⟩
    obtain ⟨reply, s, t, counts, hs, ht, hcs, hct⟩ := hnext (.free 0) (by
      rintro _ ⟨⟩
      exact ⟨⟨0, 16⟩, by decide, rfl⟩)
    exact ⟨p₀, p, _, _, reply, s, t, counts, hp₀, h₁, by decide, hs, ht, hcs, hct⟩
  · have hrun : ∃ p₀ p, Linear.create ⟨fun _ => true⟩ 64 = .ok p₀ ∧
        (record (.alloc 10) : Op Linear Entry) p₀ =
          .ok ⟨.alloc 10, .address (some 8), ⟨64, 56, 0, 0⟩, ⟨64, 32, 24, 24⟩⟩ p :=
      Op.exists_of_answerFrom (by decide +kernel)
    obtain ⟨p₀, p, hp₀, hp⟩ := hrun
    have h₀ : Runs Linear.tenure p₀ (fun _ => none) [] p₀ fun _ => none := .start
    have h₁ := h₀.recorded hp nofun
    have ho : Linear.tenure.Owns (Linear.Leases.after (fun _ => none) (.alloc 10)
        (.address (some 8))) 12 := by
      refine ⟨0, 10, rfl, by decide, ?_⟩
      have := Linear.cellExtent_ge 10
      omega
    obtain ⟨-, -, -, hnext⟩ := hlinear p₀ p₀ hp₀ hp₀ _ _ _ _ _ _ (h₁.stored 7 ho) (h₁.stored 9 ho)
      ⟨trivial, rfl⟩
    obtain ⟨reply, s, t, counts, hs, ht, hcs, hct⟩ := hnext (.free 8) (by
      rintro _ ⟨⟩
      exact ⟨0, 10, rfl, rfl⟩)
    exact ⟨p₀, p, _, _, reply, s, t, counts, hp₀, h₁, rfl, hs, ht, hcs, hct⟩

/-! ### Reset pools -/

theorem Linear.Reachable.reset_renews {p q : Linear} {leases : Linear.Leases}
    {host host' : Host} {request request' : Nat} (h : Linear.Reachable host request p leases)
    (hq : Linear.create host' request' = .ok q) (hs : q.region.size = p.region.size) :
    ∃ r, Linear.reset p = .ok p.peak r ∧
      Indistinct Linear.tenure (fun s t => t.cursor = s.cursor ∧ t.top = s.top) r q
        fun _ => none := by
  obtain ⟨cells, hp⟩ := h.chained
  obtain ⟨-, -, hk⟩ := Linear.chained_of_create hq
  have hrun : (Call.reset).run p = .ok (.peak p.peak) (Linear.mk p.region 0 0 0) := rfl
  obtain ⟨cells', hr⟩ := (hp.yields_ok hrun).chained
  exact ⟨_, rfl, Linear.lockstep.indistinct
    ⟨hr.steady rfl rfl, Linear.steady_of_create hq, hs, hk⟩ fun _ _ _ h => h.cursor_eq⟩

/-- A pool of 64 bytes is reset while two cells are held. -/
theorem reset_renews_held : ∃ (p : Linear) (leases : Linear.Leases) (q : Linear),
    Linear.Reachable ⟨fun _ => true⟩ 64 p leases ∧ leases 0 = some ⟨10, false⟩ ∧
    leases 24 = some ⟨20, false⟩ ∧ Linear.create ⟨fun _ => true⟩ 64 = .ok q ∧
    ∃ r reply s t counts, Linear.reset p = .ok p.peak r ∧
      Indistinct Linear.tenure (fun s t => t.cursor = s.cursor ∧ t.top = s.top) r q
        (fun _ => none) ∧
      (Call.alloc 30).run r = .ok reply s ∧ (Call.alloc 30).run q = .ok reply t ∧
      Allocator.stats s = .ok counts ∧ Allocator.stats t = .ok counts := by
  have h₀ : Linear.Reachable ⟨fun _ => true⟩ 64 _ _ := .created rfl
  have h₁ := h₀.returned (.alloc 10) rfl
  have h₂ := h₁.returned (.alloc 20) rfl
  have hq : Linear.create ⟨fun _ => true⟩ 64 = .ok ⟨⟨Region.zeros 64⟩, 0, 0, 0⟩ := rfl
  obtain ⟨r, hr, hsame⟩ := h₂.reset_renews hq rfl
  obtain ⟨-, -, -, hnext⟩ := hsame [] [] r _ _ _ .start .start trivial
  obtain ⟨reply, s, t, counts, hs, ht, hcs, hct⟩ := hnext (.alloc 30) nofun
  exact ⟨_, _, _, h₂, rfl, rfl, hq, r, reply, s, t, counts, hr, hsame, hs, ht, hcs, hct⟩

end FixedPool
