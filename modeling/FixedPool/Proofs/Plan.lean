import FixedPool.Proofs.Registry
import FixedPool.Registry.Plan

/-!
The registry of a plan, when the host grants every region: it fails at the first slot that there is
not, and otherwise each slot holds a fresh pool of the size that was first requested for it.
-/

namespace FixedPool

namespace Registry

variable {σ : Type} [Allocator σ] {host : Host} {requests : List Request} {q : Request}
  {r : Registry σ} {s : σ}

/-- The registry after one more request of a plan. -/
def fulfil (host : Host) (r : Registry σ) (q : Request) : Except Error (Registry σ) :=
  match install host q.size q.slot r with
  | .ok _ r => .ok r
  | .error cause _ => .error cause

/-- The slots that requests name hold the pools of the first request of each, and the others none. -/
structure Realizes (host : Host) (requests : List Request) (r : Registry σ) : Prop where
  vacant : ∀ slot, (∀ q ∈ requests, q.slot ≠ slot) → r.get? slot = none
  first : ∀ slot q, requests.find? (·.slot = slot) = some q →
    ∃ s, Allocator.create host q.size = .ok s ∧ r.get? slot = some s

/-! ### One request -/

theorem fulfil_outside (h : slotCount ≤ q.slot) (host : Host) (r : Registry σ) :
    fulfil host r q = .error (.invalidSlot q.slot) := by
  rw [fulfil, install_outside h]

theorem fulfil_existing (h : r.get? q.slot = some s) (host : Host) : fulfil host r q = .ok r := by
  rw [fulfil, install_existing h]

theorem fulfil_vacant (hd : Durable σ) (hg : ∀ n, host.grants n = true) (hs : q.slot < slotCount)
    (h : r.get? q.slot = none) :
    ∃ s, Allocator.create host q.size = .ok s ∧ fulfil host r q = .ok (r.put q.slot (some s)) := by
  obtain ⟨s, hc, -, hi⟩ | ⟨n, hn, -⟩ := install_vacant hd hs h host q.size
  · exact ⟨s, hc, by rw [fulfil, hi]⟩
  · rw [hg n] at hn
    cases hn

theorem realizes_empty (host : Host) : (empty : Registry σ).Realizes host [] where
  vacant slot _ := get?_empty slot
  first := nofun

/-- A request that comes after others for its slot changes nothing. -/
theorem Realizes.again (h : r.Realizes host requests) (hs : r.get? q.slot = some s) :
    r.Realizes host (requests ++ [q]) where
  vacant slot hn := h.vacant slot fun x hx => hn x (List.mem_append_left _ hx)
  first slot x hx := by
    rw [List.find?_append, Option.or_eq_some_iff] at hx
    obtain hx | ⟨hn, hx⟩ := hx
    · exact h.first slot x hx
    · -- No request named the slot before, although a pool is there.
      have hq : q.slot = slot := by
        by_contra hne
        simp [hne] at hx
      rw [List.find?_eq_none] at hn
      have hv := h.vacant slot fun x hx he => hn x hx (by simpa using he)
      rw [← hq, hs] at hv
      cases hv

theorem Realizes.put (h : r.Realizes host requests) (hs : q.slot < slotCount)
    (hv : r.get? q.slot = none) (hc : Allocator.create host q.size = .ok s) :
    (r.put q.slot (some s)).Realizes host (requests ++ [q]) where
  vacant slot hn := by
    have hne : q.slot ≠ slot := hn q List.mem_concat_self
    rw [get?_put hs, if_neg hne.symm]
    exact h.vacant slot fun x hx => hn x (List.mem_append_left _ hx)
  first slot x hx := by
    rw [List.find?_append, Option.or_eq_some_iff] at hx
    rw [get?_put hs]
    obtain hx | ⟨-, hx⟩ := hx
    · obtain ⟨t, ht, hg⟩ := h.first slot x hx
      have hne : slot ≠ q.slot := by
        rintro rfl
        rw [hv] at hg
        cases hg
      rw [if_neg hne]
      exact ⟨t, ht, hg⟩
    · by_cases hq : q.slot = slot
      · simp only [List.find?_singleton, hq, decide_true, if_true, Option.some.injEq] at hx
        rw [← hx, if_pos hq.symm]
        exact ⟨s, hc, rfl⟩
      · simp [hq] at hx

/-- One more request is met. -/
theorem Realizes.step (hd : Durable σ) (hg : ∀ n, host.grants n = true)
    (h : r.Realizes host requests) (hs : q.slot < slotCount) :
    ∃ t, fulfil host r q = .ok t ∧ t.Realizes host (requests ++ [q]) := by
  cases hv : r.get? q.slot with
  | some s => exact ⟨r, fulfil_existing hv host, h.again hv⟩
  | none =>
    obtain ⟨s, hc, hf⟩ := fulfil_vacant hd hg hs hv
    exact ⟨_, hf, h.put hs hv hc⟩

/-! ### Plans -/

theorem ofPlan_append (host : Host) (xs ys : List Request) :
    (ofPlan host ⟨xs ++ ys⟩ : Except Error (Registry σ)) =
      (ofPlan host ⟨xs⟩ >>= fun r => ys.foldlM (fulfil host) r) := List.foldlM_append

/-- Requests for slots that there are can be met. -/
theorem ofPlan_ok (hd : Durable σ) (hg : ∀ n, host.grants n = true)
    (h : ∀ q ∈ requests, q.slot < slotCount) :
    ∃ r : Registry σ, ofPlan host ⟨requests⟩ = .ok r ∧ r.Realizes host requests := by
  induction requests using List.reverseRecOn with
  | nil => exact ⟨empty, rfl, realizes_empty host⟩
  | append_singleton requests q ih =>
    obtain ⟨r, hr, hm⟩ := ih fun x hx => h x (List.mem_append_left _ hx)
    obtain ⟨t, ht, hm'⟩ := hm.step hd hg (h q List.mem_concat_self)
    refine ⟨t, ?_, hm'⟩
    rw [ofPlan_append, hr]
    change ([q].foldlM (fulfil host) r : Except Error (Registry σ)) = _
    rw [List.foldlM_cons, ht]
    rfl

theorem ofPlan_invalid (hd : Durable σ) (hg : ∀ n, host.grants n = true)
    (h : requests.find? (slotCount ≤ ·.slot) = some q) :
    (ofPlan host ⟨requests⟩ : Except Error (Registry σ)) = .error (.invalidSlot q.slot) := by
  obtain ⟨hq, xs, ys, rfl, hxs⟩ := List.find?_eq_some_iff_append.1 h
  obtain ⟨r, hr, -⟩ : ∃ r : Registry σ, ofPlan host ⟨xs⟩ = .ok r ∧ r.Realizes host xs := by
    apply ofPlan_ok hd hg
    intro x hx
    simpa using hxs x hx
  rw [ofPlan_append, hr]
  change ((q :: ys).foldlM (fulfil host) r : Except Error (Registry σ)) = _
  rw [List.foldlM_cons, fulfil_outside (of_decide_eq_true hq)]
  rfl

/-- A plan either names a slot that there is not, or is met. -/
theorem ofPlan_cases (hd : Durable σ) (hg : ∀ n, host.grants n = true) (requests : List Request) :
    (∃ q, requests.find? (slotCount ≤ ·.slot) = some q ∧
      (ofPlan host ⟨requests⟩ : Except Error (Registry σ)) = .error (.invalidSlot q.slot)) ∨
    (∀ q ∈ requests, q.slot < slotCount) ∧
      ∃ r : Registry σ, ofPlan host ⟨requests⟩ = .ok r ∧ r.Realizes host requests := by
  cases h : requests.find? (slotCount ≤ ·.slot) with
  | some q => exact .inl ⟨q, rfl, ofPlan_invalid hd hg h⟩
  | none =>
    have hin : ∀ q ∈ requests, q.slot < slotCount := by simpa using h
    exact .inr ⟨hin, ofPlan_ok hd hg hin⟩

theorem Realizes.mem_occupied (h : r.Realizes host requests) (slot : Nat) :
    slot ∈ r.occupied ↔ ∃ q ∈ requests, q.slot = slot := by
  rw [Registry.mem_occupied]
  constructor
  · intro hs
    by_contra hn
    rw [h.vacant slot fun q hq he => hn ⟨q, hq, he⟩] at hs
    cases hs
  · rintro ⟨q, hq, he⟩
    have hf : (requests.find? (·.slot = slot)).isSome := List.find?_isSome.2 ⟨q, hq, by simpa⟩
    obtain ⟨x, hx⟩ := Option.isSome_iff_exists.1 hf
    obtain ⟨s, -, hg⟩ := h.first slot x hx
    rw [hg]
    rfl

/-- A request after another one for its slot can be left out of a plan. -/
theorem ofPlan_repeated (hd : Durable σ) (hg : ∀ n, host.grants n = true) {xs : List Request}
    (h : ∃ x ∈ xs, x.slot = q.slot) (ys : List Request) :
    (ofPlan host ⟨xs ++ q :: ys⟩ : Except Error (Registry σ)) = ofPlan host ⟨xs ++ ys⟩ := by
  rw [ofPlan_append, ofPlan_append]
  obtain ⟨x, -, he⟩ | ⟨-, r, hr, hm⟩ := ofPlan_cases (σ := σ) hd hg xs
  · rw [he]
    rfl
  · obtain ⟨s, hs⟩ := Option.isSome_iff_exists.1 (Registry.mem_occupied.1 ((hm.mem_occupied _).2 h))
    rw [hr]
    change ((q :: ys).foldlM (fulfil host) r : Except Error (Registry σ)) = ys.foldlM (fulfil host) r
    rw [List.foldlM_cons, fulfil_existing hs]
    rfl

end Registry

/-- What the registry of a plan is. -/
structure Plan.Builds (σ : Type) [Allocator σ] (host : Host) (plan : Plan) : Prop where
  fails_iff : (∃ cause, (Registry.ofPlan host plan : Except Error (Registry σ)) = .error cause) ↔
    ∃ q ∈ plan.requests, slotCount ≤ q.slot
  invalid : ∀ q, plan.requests.find? (slotCount ≤ ·.slot) = some q →
    (Registry.ofPlan host plan : Except Error (Registry σ)) = .error (.invalidSlot q.slot)
  mem_occupied : ∀ r : Registry σ, Registry.ofPlan host plan = .ok r →
    ∀ slot, slot ∈ r.occupied ↔ ∃ q ∈ plan.requests, q.slot = slot
  ascending : ∀ r : Registry σ, Registry.ofPlan host plan = .ok r → r.occupied.Pairwise (· < ·)
  /-- The first request for a slot decides on its pool. -/
  first : ∀ r : Registry σ, Registry.ofPlan host plan = .ok r →
    ∀ slot q, plan.requests.find? (·.slot = slot) = some q →
      ∃ s, Allocator.create host q.size = .ok s ∧ r.get? slot = some s
  repeated : ∀ xs q ys, plan.requests = xs ++ q :: ys → (∃ x ∈ xs, x.slot = q.slot) →
    (Registry.ofPlan host plan : Except Error (Registry σ)) = Registry.ofPlan host ⟨xs ++ ys⟩

theorem Plan.builds {σ : Type} [Allocator σ] {host : Host} (hd : Durable σ)
    (hg : ∀ n, host.grants n = true) (plan : Plan) : plan.Builds σ host := by
  obtain ⟨requests⟩ := plan
  have hrepeated : ∀ xs q ys, requests = xs ++ q :: ys → (∃ x ∈ xs, x.slot = q.slot) →
      (Registry.ofPlan host ⟨requests⟩ : Except Error (Registry σ)) =
        Registry.ofPlan host ⟨xs ++ ys⟩ := by
    rintro xs q ys rfl hx
    exact Registry.ofPlan_repeated hd hg hx ys
  have hinvalid q (hq : requests.find? (slotCount ≤ ·.slot) = some q) :
      (Registry.ofPlan host ⟨requests⟩ : Except Error (Registry σ)) =
        .error (.invalidSlot q.slot) := Registry.ofPlan_invalid hd hg hq
  obtain ⟨q, hq, he⟩ | ⟨hin, r, hr, hm⟩ := Registry.ofPlan_cases (σ := σ) hd hg requests
  · have hmem : q ∈ requests := List.mem_of_find?_eq_some hq
    have hle : slotCount ≤ q.slot := by simpa using List.find?_some hq
    have hnot (r : Registry σ) : Registry.ofPlan host ⟨requests⟩ ≠ .ok r := by
      rw [he]
      exact nofun
    exact ⟨iff_of_true ⟨_, he⟩ ⟨q, hmem, hle⟩, hinvalid, fun r h => absurd h (hnot r),
      fun r h => absurd h (hnot r), fun r h => absurd h (hnot r), hrepeated⟩
  · have heq (t : Registry σ) (ht : Registry.ofPlan host ⟨requests⟩ = .ok t) : r = t := by
      rw [hr] at ht
      exact Except.ok.inj ht
    refine ⟨iff_of_false ?_ ?_, hinvalid, ?_, fun t _ => t.occupied_pairwise, ?_, hrepeated⟩
    · rw [hr]
      exact nofun
    · rintro ⟨q, hq, hle⟩
      exact Nat.not_lt_of_ge hle (hin q hq)
    · intro t ht
      rw [← heq t ht]
      exact hm.mem_occupied
    · intro t ht
      rw [← heq t ht]
      exact hm.first

/-- A registry is built from a plan of any length, for either kind of pool. -/
theorem builds_plans (host : Host) (hg : ∀ n, host.grants n = true) (plan : Plan) :
    plan.Builds Buddy host ∧ plan.Builds Linear host :=
  ⟨plan.builds Buddy.durable hg, plan.builds Linear.durable hg⟩

/-- Of two requests for slot 7 the first one counts, and of two slots that there are not the first
one is reported. -/
theorem builds_plans_repeated :
    (∀ n, (⟨fun _ => true⟩ : Host).grants n = true) ∧
    ((Registry.ofPlan ⟨fun _ => true⟩ ⟨[⟨7, 100⟩, ⟨2, 16⟩, ⟨7, 900⟩]⟩ :
        Except Error (Registry Buddy)).toOption.map
      fun r => ((r.get? 2).map Allocator.capacity, (r.get? 7).map Allocator.capacity)) =
      some (some 16, some 128) ∧
    Plan.Builds Buddy ⟨fun _ => true⟩ ⟨[⟨7, 100⟩, ⟨2, 16⟩, ⟨7, 900⟩]⟩ ∧
    (Registry.ofPlan ⟨fun _ => true⟩ ⟨[⟨7, 100⟩, ⟨300, 1⟩, ⟨7, 900⟩, ⟨256, 1⟩]⟩ :
      Except Error (Registry Linear)) = .error (.invalidSlot 300) := by
  have hbuilds plan := builds_plans ⟨fun _ => true⟩ (fun _ => rfl) plan
  exact ⟨fun _ => rfl, by decide +kernel, (hbuilds _).1, (hbuilds _).2.invalid ⟨300, 1⟩ rfl⟩

end FixedPool
