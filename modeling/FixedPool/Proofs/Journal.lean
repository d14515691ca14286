import FixedPool.Proofs.Allocator

/-!
Runs of a pool with a journal of the calls and their answers. Calls are about held addresses only,
and in between callers write to the bytes that they hold. Two runs that make the same calls are
compared by a relation between their states, which each call and each write has to keep.
-/

namespace FixedPool
set_option autoImplicit true

/-- A call that answered, with the counts before and after it. -/
structure Entry where
  call : Call
  reply : Reply
  before : Stats
  after : Stats
deriving DecidableEq, Repr

/-- The step of a call, with the entry that it makes. -/
def record [Allocator σ] (c : Call) : Op σ Entry := do
  let before ← Allocator.stats (← get)
  let reply ← c.run
  return ⟨c, reply, before, ← Allocator.stats (← get)⟩

/-- How the answers of calls tell what callers hold. -/
structure Tenure (η : Type) where
  after : η → Call → Reply → η
  Held : η → Address → Prop
  /-- Callers may write to the byte at an offset. -/
  Owns : η → Nat → Prop

def Tenure.Admits (T : Tenure η) (held : η) (c : Call) : Prop :=
  ∀ address, c.pointer? = some address → T.Held held address

/-- The states that calls on held addresses lead to, with the journal of the calls, the latest one
first. -/
inductive Runs [Allocator σ] (T : Tenure η) (s₀ : σ) (held₀ : η) : List Entry → σ → η → Prop
  | start : Runs T s₀ held₀ [] s₀ held₀
  | answered (c : Call) : Runs T s₀ held₀ journal s held → T.Admits held c →
      c.run s = .ok reply t → Allocator.stats s = .ok before → Allocator.stats t = .ok after →
      Runs T s₀ held₀ (⟨c, reply, before, after⟩ :: journal) t (T.after held c reply)
  | stored (v : UInt8) : Runs T s₀ held₀ journal s held → T.Owns held offset →
      Runs T s₀ held₀ journal (Allocator.mapRegion (·.setByte offset v) s) held

theorem Runs.recorded [Allocator σ] {T : Tenure η} {s₀ s t : σ} (h : Runs T s₀ held₀ journal s held)
    (he : record c s = .ok e t) (hc : T.Admits held c) :
    Runs T s₀ held₀ (e :: journal) t (T.after held c e.reply) := by
  rw [record, Op.get_bind] at he
  obtain ⟨before, s', hb, hcall⟩ := Op.bind_eq_ok.1 he
  obtain ⟨reply, t', hrun, hrest⟩ := Op.bind_eq_ok.1 hcall
  rw [Op.get_bind] at hrest
  obtain ⟨after, t'', ha, hlast⟩ := Op.bind_eq_ok.1 hrest
  obtain ⟨hb, rfl⟩ := Op.lift_eq_ok.1 hb
  obtain ⟨ha, rfl⟩ := Op.lift_eq_ok.1 ha
  cases hlast
  exact h.answered c hc hrun hb ha

/-! ### The same calls in two runs -/

/-- The address that corresponds to one of the first run: what the same call answered in the second
run. -/
def counterpart : List Entry → List Entry → Address → Address
  | e :: journal, e' :: journal', address =>
    match e.reply, e'.reply with
    | .address (some a), .address (some a') =>
      if address = a then a' else counterpart journal journal' address
    | _, _ => counterpart journal journal' address
  | _, _, address => address

def Call.rename (f : Address → Address) : Call → Call
  | realloc (some address) size => realloc (some (f address)) size
  | free address => free (f address)
  | dealloc address hint => dealloc (f address) hint
  | c => c

/-- The second run made the calls of the first one on corresponding addresses. -/
def SameCalls : List Entry → List Entry → Prop
  | [], [] => True
  | e :: journal, e' :: journal' =>
    SameCalls journal journal' ∧ e'.call = e.call.rename (counterpart journal journal')
  | _, _ => False

theorem counterpart_self (journal : List Entry) (address : Address) :
    counterpart journal journal address = address := by
  induction journal with
  | nil => rfl
  | cons e journal ih =>
    rw [counterpart]
    split
    next a a' ha ha' =>
      rw [ha] at ha'
      cases ha'
      split
      next he => exact he.symm
      next => exact ih
    next => exact ih

theorem Call.rename_counterpart_self (c : Call) (journal : List Entry) :
    c.rename (counterpart journal journal) = c := by
  cases c with
  | alloc => rfl
  | calloc => rfl
  | realloc address size =>
    cases address with
    | none => rfl
    | some address => simp only [rename, counterpart_self]
  | free address => simp only [rename, counterpart_self]
  | dealloc address hint => simp only [rename, counterpart_self]
  | reset => rfl

/-! ### Two runs side by side -/

/-- States that are related have the same counts, answer each call alike, and are related again after
it and after each write of a caller to either of them. -/
structure Lockstep [Allocator σ] (T : Tenure η) (Sim : σ → σ → η → Prop) : Prop where
  symm : ∀ {s t held}, Sim s t held → Sim t s held
  stats : ∀ {s t held}, Sim s t held →
    ∃ counts, Allocator.stats s = .ok counts ∧ Allocator.stats t = .ok counts
  call : ∀ {s t held} (c : Call), Sim s t held → T.Admits held c →
    ∃ reply s' t', c.run s = .ok reply s' ∧ c.run t = .ok reply t' ∧
      Sim s' t' (T.after held c reply)
  store : ∀ {s t held offset} (v : UInt8), Sim s t held → T.Owns held offset →
    Sim (Allocator.mapRegion (·.setByte offset v) s) t held

namespace Lockstep

variable {σ η : Type} [Allocator σ] {T : Tenure η} {Sim : σ → σ → η → Prop} {s s' t s₀ t₀ : σ}
  {held held' held₀ : η} {journal journal' : List Entry} {c : Call} {reply : Reply}
  {before after : Stats} {e : Entry}

theorem store_right (hL : Lockstep T Sim) (h : Sim s t held) (ho : T.Owns held offset) (v : UInt8) :
    Sim s (Allocator.mapRegion (·.setByte offset v) t) held :=
  hL.symm (hL.store v (hL.symm h) ho)

theorem runs_nil (hL : Lockstep T Sim) (h₀ : Sim s₀ t₀ held₀)
    (ht : Runs T t₀ held₀ [] t held) : held = held₀ ∧ Sim s₀ t held₀ := by
  generalize hj : [] = journal at ht
  induction ht with
  | start => exact ⟨rfl, h₀⟩
  | answered c => cases hj
  | stored v _ ho ih =>
    obtain ⟨rfl, h⟩ := ih hj
    exact ⟨rfl, hL.store_right h ho v⟩

theorem call_eq (hL : Lockstep T Sim) (h : Sim s t held) (hc : T.Admits held c)
    (hs : c.run s = .ok reply s') (ht : c.run t = .ok reply' t') :
    reply' = reply ∧ Sim s' t' (T.after held c reply) := by
  obtain ⟨r, u, v, hu, hv, h⟩ := hL.call c h hc
  rw [hs] at hu
  cases hu
  rw [ht] at hv
  cases hv
  exact ⟨rfl, h⟩

theorem stats_eq (hL : Lockstep T Sim) (h : Sim s t held) {counts counts' : Stats}
    (hs : Allocator.stats s = .ok counts) (ht : Allocator.stats t = .ok counts') :
    counts' = counts := by
  obtain ⟨n, hn, hn'⟩ := hL.stats h
  rw [hs] at hn
  rw [ht] at hn'
  cases hn
  cases hn'
  rfl

/-- The second run follows the first one over its latest call. -/
theorem runs_cons (hL : Lockstep T Sim)
    (ih : ∀ {t held'}, Runs T t₀ held₀ journal' t held' →
      journal' = journal ∧ held' = held ∧ Sim s t held)
    (hc : T.Admits held c) (hrun : c.run s = .ok reply s')
    (hb : Allocator.stats s = .ok before) (ha : Allocator.stats s' = .ok after)
    (he : e.call = c.rename (counterpart journal journal'))
    (ht : Runs T t₀ held₀ (e :: journal') t held') :
    e :: journal' = ⟨c, reply, before, after⟩ :: journal ∧ held' = T.after held c reply ∧
      Sim s' t (T.after held c reply) := by
  generalize hj : e :: journal' = entries at ht
  induction ht with
  | start => cases hj
  | answered c' ht hc' hrun' hb' ha' =>
    cases hj
    obtain ⟨rfl, rfl, h⟩ := ih ht
    rw [Call.rename_counterpart_self] at he
    cases he
    obtain ⟨rfl, h'⟩ := hL.call_eq h hc hrun hrun'
    obtain rfl := hL.stats_eq h hb hb'
    obtain rfl := hL.stats_eq h' ha ha'
    exact ⟨rfl, rfl, h'⟩
  | stored v _ ho ih' =>
    obtain ⟨hj, rfl, h⟩ := ih' hj
    exact ⟨hj, rfl, hL.store_right h ho v⟩

/-- Two runs from related states that make the same calls write the same journal. -/
theorem runs (hL : Lockstep T Sim) (h₀ : Sim s₀ t₀ held₀) (hs : Runs T s₀ held₀ journal s held)
    (ht : Runs T t₀ held₀ journal' t held') (hm : SameCalls journal journal') :
    journal' = journal ∧ held' = held ∧ Sim s t held := by
  induction hs generalizing journal' t held' with
  | start =>
    cases journal' with
    | nil => exact ⟨rfl, hL.runs_nil h₀ ht⟩
    | cons e journal' => cases hm
  | stored v _ ho ih =>
    obtain ⟨rfl, rfl, h⟩ := ih ht hm
    exact ⟨rfl, rfl, hL.store v h ho⟩
  | answered c _ hc hrun hb ha ih =>
    cases journal' with
    | nil => cases hm
    | cons e journal' =>
      obtain ⟨hm, he⟩ := hm
      exact hL.runs_cons (fun ht => ih ht hm) hc hrun hb ha he ht

end Lockstep

/-- Runs from two states that make the same calls have the same answers and counts in their journals,
hold the same, end in states that agree, and answer each further call alike. -/
def Indistinct [Allocator σ] (T : Tenure η) (Agree : σ → σ → Prop) (s₀ t₀ : σ) (held₀ : η) : Prop :=
  ∀ journal journal' s t held held', Runs T s₀ held₀ journal s held →
    Runs T t₀ held₀ journal' t held' → SameCalls journal journal' →
    journal' = journal ∧ held' = held ∧ Agree s t ∧ ∀ c, T.Admits held c →
      ∃ reply s' t' counts, c.run s = .ok reply s' ∧ c.run t = .ok reply t' ∧
        Allocator.stats s' = .ok counts ∧ Allocator.stats t' = .ok counts

theorem Lockstep.indistinct [Allocator σ] {T : Tenure η} {Sim : σ → σ → η → Prop}
    {Agree : σ → σ → Prop} (hL : Lockstep T Sim) (h₀ : Sim s₀ t₀ held₀)
    (hagree : ∀ s t held, Sim s t held → Agree s t) : Indistinct T Agree s₀ t₀ held₀ := by
  intro journal journal' s t held held' hs ht hm
  obtain ⟨rfl, rfl, h⟩ := hL.runs h₀ hs ht hm
  refine ⟨rfl, rfl, hagree s t _ h, ?_⟩
  intro c hc
  obtain ⟨reply, s', t', hs', ht', h'⟩ := hL.call c h hc
  obtain ⟨counts, hcs, hct⟩ := hL.stats h'
  exact ⟨reply, s', t', counts, hs', ht', hcs, hct⟩

end FixedPool
