import FixedPool.Proofs.Capacity
import FixedPool.Registry.Basic

/-!
A registry behaves as that many places which know nothing of each other, each of which holds a pool
or none. What a place holds and answers is told by what was asked of its own slot alone.
-/

namespace FixedPool

/-- What can be asked of a registry, each time about one slot. -/
inductive Demand
  | install (host : Host) (size : Nat)
  | installOrZero (host : Host) (size : Nat)
  | destroy
  | call (c : Call)
  /-- Whoever holds addresses of a pool may write to any of its bytes. -/
  | store (offset : Nat) (v : UInt8)

inductive Response
  | capacity (bytes : Nat)
  | refused (cause : Error)
  | fault (cause : Fault)
  | reply (r : Reply)
  | vacant
  | done
deriving DecidableEq

/-- What was asked about a slot, and the response. -/
structure Exchange where
  slot : Nat
  demand : Demand
  response : Response

/-- What a single place for a pool responds, and what it holds from then on. -/
def Demand.meet {σ : Type} [Allocator σ] : Demand → Option σ → Response × Option σ
  | install _ _, some s | installOrZero _ _, some s => (.capacity (Allocator.capacity s), some s)
  | install host size, none =>
    match Allocator.create host size with
    | .ok s => (.capacity (Allocator.capacity s), some s)
    | .error cause => (.refused cause, none)
  | installOrZero host size, none =>
    match Allocator.create host size with
    | .ok s => (.capacity (Allocator.capacity s), some s)
    | .error _ => (.capacity 0, none)
  | destroy, _ => (.done, none)
  | call _, none | store _ _, none => (.vacant, none)
  | call c, some s =>
    match c.run s with
    | .ok reply t => (.reply reply, some t)
    | .error cause t => (.fault cause, some t)
  | store offset v, some s => (.done, some (Allocator.mapRegion (·.setByte offset v) s))

/-- The response about a slot that there is not. -/
def Demand.outside (slot : Nat) : Demand → Response
  | install _ _ => .refused (.invalidSlot slot)
  | installOrZero _ _ => .capacity 0
  | destroy => .done
  | call _ | store _ _ => .vacant

/-- A pool was created, or was there already. -/
def Exchange.Creates (e : Exchange) : Prop :=
  ∃ n, n ≠ 0 ∧ e.response = .capacity n

/-- What a single place for a pool holds after what was asked of it, the latest first. -/
inductive Lone {σ : Type} [Allocator σ] : List Exchange → Option σ → Prop
  | start : Lone [] none
  | met {journal : List Exchange} {place : Option σ} (slot : Nat) (d : Demand) :
      Lone journal place →
      Lone (⟨slot, d, (d.meet place).1⟩ :: journal) (d.meet place).2

/-- The slot was created successfully and not destroyed since. -/
def Standing (journal : List Exchange) (slot : Nat) : Prop :=
  ∃ later e earlier, journal = later ++ e :: earlier ∧ e.slot = slot ∧ e.Creates ∧
    ∀ d ∈ later, d.slot = slot → d.demand ≠ .destroy

/-- A pool that is held has a positive capacity of 32 bits. -/
def Sized {σ : Type} [Allocator σ] (place : Option σ) : Prop :=
  ∀ s, place = some s → 0 < Allocator.capacity s ∧ Allocator.capacity s < UInt32.size

namespace Demand

variable {σ : Type} [Allocator σ] {place : Option σ} {slot : Nat}

/-- A place answers with the capacity of what it holds, or holds nothing, or goes on holding what it
held. -/
theorem meet_cases (hd : Durable σ) (h : Sized place) (d : Demand) :
    (∃ s, d.meet place = (.capacity (Allocator.capacity s), some s) ∧ Sized (some s)) ∨
    (d.meet place).2 = none ∧ (∀ n, n ≠ 0 → (d.meet place).1 ≠ .capacity n) ∧
      (d = .destroy ∨ place = none) ∨
    ∃ s t, place = some s ∧ (d.meet place).2 = some t ∧
      Allocator.capacity t = Allocator.capacity s ∧ d ≠ .destroy := by
  have hbuilt {s : σ} (hn : 0 < Allocator.capacity s ∧ Allocator.capacity s < UInt32.size) :
      Sized (some s) := by
    rintro _ ⟨⟩
    exact hn
  cases d with
  | destroy => exact .inr (.inl ⟨rfl, fun _ _ => by rintro ⟨⟩, .inl rfl⟩)
  | install host size =>
    cases place with
    | some s => exact .inl ⟨s, rfl, h⟩
    | none =>
      obtain ⟨s, hs, hn⟩ | ⟨n, -, hs⟩ := hd.builds host size <;> rw [meet, hs]
      · exact .inl ⟨s, rfl, hbuilt hn⟩
      · exact .inr (.inl ⟨rfl, fun _ _ => by rintro ⟨⟩, .inr rfl⟩)
  | installOrZero host size =>
    cases place with
    | some s => exact .inl ⟨s, rfl, h⟩
    | none =>
      obtain ⟨s, hs, hn⟩ | ⟨n, -, hs⟩ := hd.builds host size <;> rw [meet, hs]
      · exact .inl ⟨s, rfl, hbuilt hn⟩
      · refine .inr (.inl ⟨rfl, ?_, .inr rfl⟩)
        rintro n hn ⟨⟩
        exact hn rfl
  | call c =>
    cases place with
    | none => exact .inr (.inl ⟨rfl, fun _ _ => by rintro ⟨⟩, .inr rfl⟩)
    | some s =>
      have hkept := hd.run c s
      rw [Op.ending] at hkept
      cases hc : (c.run : Op σ Reply) s with
      | ok reply t =>
        rw [hc] at hkept
        exact .inr (.inr ⟨s, t, rfl, by simp only [meet, hc], hkept, by rintro ⟨⟩⟩)
      | error cause t =>
        rw [hc] at hkept
        exact .inr (.inr ⟨s, t, rfl, by simp only [meet, hc], hkept, by rintro ⟨⟩⟩)
  | store offset v =>
    cases place with
    | none => exact .inr (.inl ⟨rfl, fun _ _ => by rintro ⟨⟩, .inr rfl⟩)
    | some s => exact .inr (.inr ⟨s, _, rfl, rfl, hd.store s offset v, by rintro ⟨⟩⟩)

theorem meet_sized (hd : Durable σ) (h : Sized place) (d : Demand) : Sized (d.meet place).2 := by
  obtain ⟨s, hm, hs⟩ | ⟨hm, -⟩ | ⟨s, t, rfl, hm, hc, -⟩ := meet_cases hd h d
  · rwa [hm]
  · rw [hm]
    exact nofun
  · rw [hm]
    rintro _ ⟨⟩
    exact hc ▸ h s rfl

/-- A place holds a pool just after one was created there, and then until it is destroyed. -/
theorem meet_isSome (hd : Durable σ) (h : Sized place) (d : Demand) (slot : Nat) :
    (d.meet place).2.isSome ↔
      (⟨slot, d, (d.meet place).1⟩ : Exchange).Creates ∨ place.isSome ∧ d ≠ .destroy := by
  obtain ⟨s, hm, hs⟩ | ⟨hm, hn, he⟩ | ⟨s, t, rfl, hm, -, hne⟩ := meet_cases hd h d
  · rw [hm]
    exact iff_of_true rfl (.inl ⟨_, Nat.ne_of_gt (hs s rfl).1, rfl⟩)
  · rw [hm]
    refine iff_of_false nofun ?_
    rintro (⟨n, h0, hr⟩ | ⟨hsome, hne⟩)
    · exact hn n h0 hr
    · obtain rfl | rfl := he
      · exact hne rfl
      · cases hsome
  · rw [hm]
    exact iff_of_true rfl (.inr ⟨rfl, hne⟩)

theorem outside_not_creates (d : Demand) : ¬ (⟨slot, d, d.outside slot⟩ : Exchange).Creates := by
  rintro ⟨n, hn, h⟩
  cases d with
  | installOrZero host size =>
    cases h
    exact hn rfl
  | _ => cases h

end Demand

/-- The last of the exchanges tells whether a slot is standing, or it is as it was before. -/
theorem standing_cons {e : Exchange} {journal : List Exchange} {slot : Nat} :
    Standing (e :: journal) slot ↔ e.slot = slot ∧ e.Creates ∨
      Standing journal slot ∧ (e.slot = slot → e.demand ≠ .destroy) := by
  constructor
  · rintro ⟨_ | ⟨f, later⟩, e', earlier, hj, hs, hc, hd⟩
    · cases hj
      exact .inl ⟨hs, hc⟩
    · cases hj
      exact .inr ⟨⟨later, e', earlier, rfl, hs, hc, fun d hl => hd d (.tail _ hl)⟩,
        hd e (.head _)⟩
  · rintro (⟨hs, hc⟩ | ⟨⟨later, e', earlier, rfl, hs, hc, hd⟩, hl⟩)
    · exact ⟨[], e, journal, rfl, hs, hc, nofun⟩
    · refine ⟨e :: later, e', earlier, rfl, hs, hc, ?_⟩
      rintro d (_ | ⟨_, h⟩)
      · exact hl
      · exact hd d h

namespace Registry

variable {σ : Type} [Allocator σ] {r t : Registry σ} {slot other : Nat} {place : Option σ}
  {journal : List Exchange} {d : Demand} {e : Exchange}

/-- The response of a registry, and the registry after it. -/
def perform (slot : Nat) (d : Demand) (r : Registry σ) : Response × Registry σ :=
  match d with
  | .install host size =>
    match install host size slot r with
    | .ok n r => (.capacity n, r)
    | .error cause r => (.refused cause, r)
  | .installOrZero host size =>
    match installOrZero host size slot r with
    | .ok n r => (.capacity n, r)
    | .error cause r => (.fault cause, r)
  | .destroy => (.done, r.destroy slot)
  | .call c =>
    match onSlot slot c.run r with
    | .ok none r => (.vacant, r)
    | .ok (some reply) r => (.reply reply, r)
    | .error cause r => (.fault cause, r)
  | .store offset v =>
    match onSlot slot (modify (Allocator.mapRegion (·.setByte offset v))) r with
    | .ok none r => (.vacant, r)
    | .ok (some _) r => (.done, r)
    | .error cause r => (.fault cause, r)

/-- The registries that demands lead to from the empty one, with the demands and the responses, the
latest first. -/
inductive History : List Exchange → Registry σ → Prop
  | start : History [] empty
  | performed {journal : List Exchange} {r : Registry σ} (slot : Nat) (d : Demand) :
      History journal r →
      History (⟨slot, d, (r.perform slot d).1⟩ :: journal) (r.perform slot d).2

/-! ### Slots -/

omit [Allocator σ] in
theorem ext_get? (h : ∀ slot < slotCount, t.get? slot = r.get? slot) : t = r := by
  obtain ⟨v⟩ := r
  obtain ⟨w⟩ := t
  congr 1
  apply Vector.ext
  intro i hi
  have hg := h i hi
  simpa only [get?, Vector.getElem?_eq_getElem hi, Option.join_some] using hg

omit [Allocator σ] in
theorem get?_put (h : slot < slotCount) (place : Option σ) (other : Nat) :
    (r.put slot place).get? other = if other = slot then place else r.get? other := by
  rw [get?, put, Vector.getElem?_setIfInBounds]
  by_cases he : slot = other
  · rw [if_pos he, if_pos h, if_pos he.symm, Option.join_some]
  · rw [if_neg he, if_neg (Ne.symm he), get?]

omit [Allocator σ] in
theorem get?_put_self (h : slot < slotCount) : (r.put slot place).get? slot = place := by
  rw [get?_put h, if_pos rfl]

omit [Allocator σ] in
theorem get?_outside (h : slotCount ≤ slot) : r.get? slot = none := by
  rw [get?, Vector.getElem?_eq_none h]
  rfl

omit [Allocator σ] in
theorem lt_of_get? {s : σ} (h : r.get? slot = some s) : slot < slotCount := by
  by_contra hn
  rw [get?_outside (Nat.le_of_not_lt hn)] at h
  cases h

omit [Allocator σ] in
theorem put_outside (h : slotCount ≤ slot) (place : Option σ) : r.put slot place = r := by
  apply ext_get?
  intro other ho
  rw [get?, put, Vector.getElem?_setIfInBounds, if_neg (by omega), get?]

omit [Allocator σ] in
/-- Putting back what is there changes nothing. -/
theorem put_of_get? (h : r.get? slot = place) : r.put slot place = r := by
  by_cases hs : slot < slotCount
  · apply ext_get?
    intro other _
    rw [get?_put hs]
    split
    next he => rw [he, h]
    next => rfl
  · exact put_outside (Nat.le_of_not_lt hs) place

omit [Allocator σ] in
theorem get?_empty (slot : Nat) : (empty : Registry σ).get? slot = none := by
  rw [get?, empty, Vector.getElem?_replicate]
  split <;> rfl

omit [Allocator σ] in
theorem mem_occupied : slot ∈ r.occupied ↔ (r.get? slot).isSome := by
  rw [occupied, List.mem_filter, List.mem_range]
  refine ⟨And.right, fun h => ⟨?_, h⟩⟩
  obtain ⟨s, hs⟩ := Option.isSome_iff_exists.mp h
  exact lt_of_get? hs

omit [Allocator σ] in
theorem occupied_pairwise (r : Registry σ) : r.occupied.Pairwise (· < ·) :=
  List.pairwise_lt_range.filter _

/-! ### One demand -/

variable {host : Host} {size : Nat} {s : σ}

theorem install_existing (h : r.get? slot = some s) (host : Host) (size : Nat) :
    install host size slot r = .ok (Allocator.capacity s) r := by
  rw [install, if_pos (lt_of_get? h), h]

theorem install_built (hs : slot < slotCount) (h : r.get? slot = none)
    (hb : Allocator.create host size = .ok s) :
    install host size slot r = .ok (Allocator.capacity s) (r.put slot (some s)) := by
  rw [install, if_pos hs, h]
  simp only [hb]

theorem install_refused {cause : Error} (hs : slot < slotCount) (h : r.get? slot = none)
    (hb : (Allocator.create host size : Except Error σ) = .error cause) :
    install host size slot r = .error cause r := by
  rw [install, if_pos hs, h]
  simp only [hb]

theorem install_outside (h : slotCount ≤ slot) (host : Host) (size : Nat) (r : Registry σ) :
    install host size slot r = .error (.invalidSlot slot) r := by
  rw [install, if_neg (Nat.not_lt.mpr h)]

theorem installOrZero_ok {n : Nat} (h : install host size slot r = .ok n t) (hn : n < UInt32.size) :
    installOrZero host size slot r = .ok n t := by
  rw [installOrZero, h]
  simp only [if_pos hn]

/-- Every failure but that of a check is answered with zero. -/
theorem installOrZero_error {cause : Error} (h : install host size slot r = .error cause t)
    (hc : ∀ f, cause ≠ .fault f) : installOrZero host size slot r = .ok 0 t := by
  rw [installOrZero, h]
  cases cause with
  | fault f => exact absurd rfl (hc f)
  | _ => rfl

theorem perform_outside (h : slotCount ≤ slot) (d : Demand) (r : Registry σ) :
    r.perform slot d = (d.outside slot, r) := by
  have hnone : r.get? slot = none := get?_outside h
  cases d with
  | install host size => simp only [perform, install_outside h, Demand.outside]
  | installOrZero host size =>
    simp only [perform, installOrZero_error (install_outside h host size r) nofun, Demand.outside]
  | destroy => simp only [perform, destroy, put_outside h, Demand.outside]
  | call c => simp only [perform, onSlot, hnone, Demand.outside]
  | store offset v => simp only [perform, onSlot, hnone, Demand.outside]

/-- What is asked about a slot changes what the slot holds as it would change a single place. -/
theorem perform_inside (hd : Durable σ) (hr : ∀ slot, Sized (r.get? slot)) (h : slot < slotCount)
    (d : Demand) :
    r.perform slot d = ((d.meet (r.get? slot)).1, r.put slot (d.meet (r.get? slot)).2) := by
  cases d with
  | destroy => rfl
  | install host size =>
    cases hg : r.get? slot with
    | some s => simp only [perform, install_existing hg, Demand.meet, put_of_get? hg]
    | none =>
      cases hb : (Allocator.create host size : Except Error σ) with
      | ok s => simp only [perform, install_built h hg hb, Demand.meet, hb]
      | error cause =>
        simp only [perform, install_refused h hg hb, Demand.meet, hb, put_of_get? hg]
  | installOrZero host size =>
    cases hg : r.get? slot with
    | some s =>
      have hz := installOrZero_ok (install_existing hg host size) (hr slot s hg).2
      simp only [perform, hz, Demand.meet, put_of_get? hg]
    | none =>
      obtain ⟨s, hb, -, hn⟩ | ⟨n, -, hb⟩ := hd.builds host size
      · have hz := installOrZero_ok (install_built h hg hb) hn
        simp only [perform, hz, Demand.meet, hb]
      · have hz := installOrZero_error (install_refused h hg hb) nofun
        simp only [perform, hz, Demand.meet, hb, put_of_get? hg]
  | call c =>
    cases hg : r.get? slot with
    | none => simp only [perform, onSlot, hg, Demand.meet, put_of_get? hg]
    | some s =>
      cases hc : (c.run : Op σ Reply) s <;> simp only [perform, onSlot, hg, Demand.meet, hc]
  | store offset v =>
    cases hg : r.get? slot with
    | none => simp only [perform, onSlot, hg, Demand.meet, put_of_get? hg]
    | some s => simp only [perform, onSlot, hg, Demand.meet]; rfl

theorem get?_perform_of_ne (hd : Durable σ) (hr : ∀ slot, Sized (r.get? slot)) (h : other ≠ slot)
    (d : Demand) : (r.perform slot d).2.get? other = r.get? other := by
  by_cases hs : slot < slotCount
  · rw [perform_inside hd hr hs, get?_put hs, if_neg h]
  · rw [perform_outside (Nat.le_of_not_lt hs)]

/-! ### Every history -/

namespace History

theorem sized (hd : Durable σ) (h : History journal r) (slot : Nat) : Sized (r.get? slot) := by
  induction h generalizing slot with
  | start =>
    rw [get?_empty]
    exact nofun
  | @performed journal r named d _ ih =>
    by_cases hn : named < slotCount
    · rw [perform_inside hd ih hn, get?_put hn]
      split
      · exact Demand.meet_sized hd (ih named) d
      · exact ih slot
    · rw [perform_outside (Nat.le_of_not_lt hn)]
      exact ih slot

/-- What a slot holds is what the exchanges about it alone make a single place hold. -/
theorem lone (hd : Durable σ) (h : History journal r) (hs : slot < slotCount) :
    Lone (journal.filter (·.slot = slot)) (r.get? slot) := by
  induction h with
  | start =>
    rw [get?_empty]
    exact .start
  | @performed journal r named d h ih =>
    by_cases hn : named = slot
    · subst hn
      rw [List.filter_cons_of_pos (by exact decide_eq_true rfl), perform_inside hd (h.sized hd) hs,
        get?_put_self hs]
      exact .met named d ih
    · rw [List.filter_cons_of_neg (by simpa using hn)]
      rwa [get?_perform_of_ne hd (h.sized hd) (Ne.symm hn)]

theorem isSome_iff (hd : Durable σ) (h : History journal r) (slot : Nat) :
    (r.get? slot).isSome ↔ Standing journal slot := by
  induction h with
  | start =>
    rw [get?_empty]
    refine iff_of_false nofun ?_
    rintro ⟨later, e, earlier, hj, -⟩
    exact List.append_ne_nil_of_right_ne_nil later (List.cons_ne_nil e earlier) hj.symm
  | @performed journal r named d h ih =>
    rw [standing_cons, ← ih]
    by_cases hn : named = slot
    · subst hn
      by_cases hs : named < slotCount
      · rw [perform_inside hd (h.sized hd) hs, get?_put_self hs,
          Demand.meet_isSome hd (h.sized hd named) d named]
        simp only [true_and, forall_const]
      · have ho := Nat.le_of_not_lt hs
        rw [perform_outside ho, get?_outside ho]
        refine iff_of_false nofun ?_
        rintro (⟨-, hc⟩ | ⟨hsome, -⟩)
        · exact d.outside_not_creates hc
        · cases hsome
    · rw [get?_perform_of_ne hd (h.sized hd) (Ne.symm hn)]
      simp only [hn, false_and, IsEmpty.forall_iff, and_true, false_or]

end History

/-- After what the journal lists, the slots are places that know nothing of each other, and the
registry tells the slots that are standing. -/
structure Independent (journal : List Exchange) (r : Registry σ) : Prop where
  alone : ∀ slot < slotCount, Lone (journal.filter (·.slot = slot)) (r.get? slot)
  others : ∀ slot d other, other ≠ slot → (r.perform slot d).2.get? other = r.get? other
  outside : ∀ slot d, slotCount ≤ slot → r.perform slot d = (d.outside slot, r)
  existing : ∀ slot s, r.get? slot = some s → ∀ host size,
    install host size slot r = .ok (Allocator.capacity s) r
  /-- A slot that is free gets a fresh pool, unless the host refuses its region. -/
  vacant : ∀ slot < slotCount, r.get? slot = none → ∀ host size,
    (∃ s, Allocator.create host size = .ok s ∧
      install host size slot r = .ok (Allocator.capacity s) (r.put slot (some s))) ∨
    ∃ n, host.grants n = false ∧ install host size slot r = .error (.unmapped n) r
  /-- Zero says that there is no pool, and nothing else does. -/
  zeroed : ∀ host size slot,
    (∃ n t, install host size slot r = .ok n t ∧ installOrZero host size slot r = .ok n t ∧ n ≠ 0) ∨
    ∃ cause, install host size slot r = .error cause r ∧ installOrZero host size slot r = .ok 0 r
  mem_occupied : ∀ slot, slot ∈ r.occupied ↔ Standing journal slot
  ascending : r.occupied.Pairwise (· < ·)

theorem install_vacant (hd : Durable σ) (hs : slot < slotCount) (h : r.get? slot = none)
    (host : Host) (size : Nat) :
    (∃ s, Allocator.create host size = .ok s ∧ Sized (some s) ∧
      install host size slot r = .ok (Allocator.capacity s) (r.put slot (some s))) ∨
    ∃ n, host.grants n = false ∧ install host size slot r = .error (.unmapped n) r := by
  obtain ⟨s, hb, hn⟩ | ⟨n, hg, hb⟩ := hd.builds host size
  · refine .inl ⟨s, hb, ?_, install_built hs h hb⟩
    rintro _ ⟨⟩
    exact hn
  · exact .inr ⟨n, hg, install_refused hs h hb⟩

/-- Both ways to create a pool agree, but for the cause of a refusal. -/
theorem install_cases (hd : Durable σ) (hr : ∀ slot, Sized (r.get? slot)) (host : Host)
    (size slot : Nat) :
    (∃ n t, install host size slot r = .ok n t ∧ installOrZero host size slot r = .ok n t ∧ n ≠ 0) ∨
    ∃ cause, install host size slot r = .error cause r ∧
      installOrZero host size slot r = .ok 0 r := by
  by_cases hs : slot < slotCount
  · cases hg : r.get? slot with
    | some s =>
      obtain ⟨h0, hn⟩ := hr slot s hg
      have hi := install_existing hg host size
      exact .inl ⟨_, _, hi, installOrZero_ok hi hn, Nat.ne_of_gt h0⟩
    | none =>
      obtain ⟨s, -, hn, hi⟩ | ⟨n, -, hi⟩ := install_vacant hd hs hg host size
      · exact .inl ⟨_, _, hi, installOrZero_ok hi (hn s rfl).2, Nat.ne_of_gt (hn s rfl).1⟩
      · exact .inr ⟨_, hi, installOrZero_error hi nofun⟩
  · have hi := install_outside (Nat.le_of_not_lt hs) host size r
    exact .inr ⟨_, hi, installOrZero_error hi nofun⟩

theorem History.independent (hd : Durable σ) (h : History journal r) : Independent journal r where
  alone _ hs := h.lone hd hs
  others _ d _ hne := get?_perform_of_ne hd (h.sized hd) hne d
  outside _ d hs := perform_outside hs d r
  existing _ _ hg := install_existing hg
  vacant _ hs hg host size :=
    (install_vacant hd hs hg host size).imp_left fun ⟨s, hb, _, hi⟩ => ⟨s, hb, hi⟩
  zeroed := install_cases hd (h.sized hd)
  mem_occupied slot := mem_occupied.trans (h.isSome_iff hd slot)
  ascending := occupied_pairwise r

end Registry

/-- What becomes of one slot is no matter of the others, for either kind of pool. -/
theorem slots_independent :
    (∀ journal (r : Registry Buddy), r.History journal → r.Independent journal) ∧
    ∀ journal (r : Registry Linear), r.History journal → r.Independent journal :=
  ⟨fun _ _ h => h.independent Buddy.durable, fun _ _ h => h.independent Linear.durable⟩

/-- A pool is used, another one is destroyed, and a third is refused. -/
theorem slots_independent_destroyed :
    (∃ journal, ∃ r : Registry Buddy, r.History journal ∧
      journal.map (·.response) =
        [.done, .refused (.unmapped 64), .reply (.address (some 0)), .capacity 64, .capacity 64] ∧
      3 ∈ r.occupied ∧ 200 ∉ r.occupied ∧ r.Independent journal) ∧
    ∃ journal, ∃ r : Registry Linear, r.History journal ∧
      journal.map (·.response) =
        [.done, .refused (.unmapped 64), .reply (.address (some 8)), .capacity 64, .capacity 64] ∧
      3 ∈ r.occupied ∧ 200 ∉ r.occupied ∧ r.Independent journal := by
  obtain ⟨hbuddy, hlinear⟩ := slots_independent
  have hrun {σ : Type} [Allocator σ] :=
    (((((Registry.History.start (σ := σ)).performed 3 (.install ⟨fun _ => true⟩ 64)).performed 200
      (.installOrZero ⟨fun _ => true⟩ 64)).performed 3 (.call (.alloc 16))).performed 7
      (.install ⟨fun _ => false⟩ 64)).performed 200 .destroy
  refine ⟨⟨_, _, hrun, by decide +kernel, ?_, ?_, hbuddy _ _ hrun⟩,
    _, _, hrun, by decide +kernel, ?_, ?_, hlinear _ _ hrun⟩
  all_goals
    rw [Registry.mem_occupied]
    decide +kernel

end FixedPool
