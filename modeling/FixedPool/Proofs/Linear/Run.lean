import FixedPool.Proofs.Allocator
import FixedPool.Proofs.Linear.Effect

/-!
Runs of a linear pool: any calls with any addresses, between which callers write behind the headers
of the cells that they hold. After each of them the cells below the cursor form one chain.
-/

namespace FixedPool.Linear

namespace Leases

/-- The leases after a call that answered. A moving `realloc` leases the new cell before it releases
the old one. -/
def after (leases : Leases) : Call → Reply → Leases
  | .alloc size, .address (some a) => leases.acquire (a - 8) size
  | .calloc count size, .address (some a) => leases.acquire (a - 8) (count * size)
  | .realloc none size, .address (some a) => leases.acquire (a - 8) size
  | .realloc (some address) size, .address (some a) =>
    (leases.acquire (a - 8) size).release address
  | .realloc (some address) 0, .address none => leases.release address
  | .free address, .done => leases.release address
  | .dealloc address _, .done => leases.release address
  | .reset, .peak _ => fun _ => none
  | _, _ => leases

/-- The leases after a call that a fault ended in state `q`: it may have put a cell on top before. -/
def afterFault (leases : Leases) (p q : Linear) (c : Call) : Leases :=
  match c.request? with
  | some size => if p.cursor < q.cursor then leases.acquire p.cursor size else leases
  | none => leases

end Leases

/-- The states of a pool after any calls, with the leases that their answers tell of. -/
inductive Reachable (host : Host) (request : Nat) : Linear → Leases → Prop
  | created : create host request = .ok p → Reachable host request p fun _ => none
  | returned (c : Call) : Reachable host request p leases → c.run p = .ok reply q →
      Reachable host request q (leases.after c reply)
  | faulted (c : Call) : Reachable host request p leases → c.run p = .error cause q →
      Reachable host request q (leases.afterFault p q c)
  | stored (v : UInt8) : Reachable host request p leases → leases cell = some ⟨size, false⟩ →
      cell + 8 ≤ offset → offset < cell + cellExtent size →
      Reachable host request { p with region := p.region.setByte offset v } leases

/-- The ways in which a call answers. -/
inductive Ends (p : Linear) (leases : Leases) : Call → Reply → Linear → Leases → Prop
  | declined : Ends p leases c (.address none) p leases
  | placed : c.request? = some size → p.Fits size → r.size = p.region.size →
      (∀ i, i < p.cursor + 8 ∨ p.cursor + 8 + size ≤ i →
        r.byte i = (p.withCell size).region.byte i) →
      Ends p leases c (.address (some (p.cursor + 8))) { p.withCell size with region := r }
        (leases.acquire p.cursor size)
  | released (address : Address) : c.pointer? = some address →
      (∀ a, reply ≠ .address (some a)) → free address p = .ok () q →
      Ends p leases c reply q (leases.release address)
  | moved (address : Address) : p.Fits size → address < p.region.size →
      free address (p.withCopy address size) = .ok () q →
      Ends p leases (.realloc (some address) size) (.address (some (p.cursor + 8))) q
        ((leases.acquire p.cursor size).release address)
  | emptied : Ends p leases .reset (.peak p.peak) { p with cursor := 0, top := 0, peak := 0 }
      fun _ => none

/-- A call that fails has changed nothing, or has put the new cell of a move on top. -/
inductive Fails (p : Linear) : Call → Linear → Prop
  | refused : Fails p c p
  | moving (address : Address) : p.Fits size → address < p.region.size →
      Fails p (.realloc (some address) size) (p.withCopy address size)

variable {p q : Linear} {leases : Leases} {cells : List Nat} {host host' : Host}
  {request : Nat}

/-- There is one pool for a request, without a cell and of a multiple of 8 bytes, which is built by
every host that does not refuse its region. -/
theorem create_eq (request : Nat) :
    ∃ p n, 8 ∣ p.region.size ∧ p.Chained (fun _ => none) [] ∧ p.peak = 0 ∧ 0 < p.region.size ∧
      ∀ host,
      create host request = .ok p ∨
      host.grants n = false ∧ create host request = .error (.unmapped n) := by
  obtain ⟨m, hm⟩ : ∃ m, m = min (max request leastCapacity) mostCapacity := ⟨_, rfl⟩
  have hmost : mostCapacity = 2 ^ 31 := rfl
  have hleast : leastCapacity = 16 := rfl
  have hround : Word.roundUp m (2 ^ 3) = .ok ((m + 2 ^ 3 - 1) / 2 ^ 3 * 2 ^ 3) :=
    Word.roundUp_two_pow (by decide) (by have := Word.bound_eq; omega)
  obtain ⟨n, hn⟩ : ∃ n, n = (m + 2 ^ 3 - 1) / 2 ^ 3 * 2 ^ 3 := ⟨_, rfl⟩
  rw [← hn] at hround
  have hs : (⟨Region.zeros n⟩ : Region).size = n := Region.size_zeros n
  refine ⟨⟨⟨Region.zeros n⟩, 0, 0, 0⟩, n, ?_, ⟨?_, Nat.zero_le _, ⟨rfl, rfl⟩, nofun⟩, rfl, ?_, ?_⟩
  · change 8 ∣ (⟨Region.zeros n⟩ : Region).size
    omega
  · change (⟨Region.zeros n⟩ : Region).size ≤ 2 ^ 31
    omega
  · change 0 < (⟨Region.zeros n⟩ : Region).size
    omega
  · intro host
    have hcreate : create host request = (do return ⟨← Region.map host n, 0, 0, 0⟩) := by
      rw [create, ← hm]
      exact Checked.lift_bind _ hround
    rw [hcreate]
    obtain hr | ⟨hg, hr⟩ := Region.map_cases host (by omega : n ≠ 0)
    · rw [hr]
      exact .inl rfl
    · rw [hr]
      exact .inr ⟨hg, rfl⟩

/-- A pool is built without a cell, and in multiples of 8 bytes, unless the host refuses its
region. -/
theorem create_cases (host : Host) (request : Nat) :
    (∃ p, create host request = .ok p ∧ 8 ∣ p.region.size ∧ p.Chained (fun _ => none) []) ∨
    ∃ n, host.grants n = false ∧ create host request = .error (.unmapped n) := by
  obtain ⟨p, n, hd, hp, -, -, hcreate⟩ := create_eq request
  exact (hcreate host).imp (fun h => ⟨p, h, hd, hp⟩) fun hn => ⟨n, hn⟩

theorem chained_of_create (h : create host request = .ok p) :
    8 ∣ p.region.size ∧ p.Chained (fun _ => none) [] ∧ p.peak = 0 := by
  obtain ⟨r, n, hd, hr, hpk, -, hcreate⟩ := create_eq request
  obtain rfl := Checked.eq_of_ok (hcreate host) h
  exact ⟨hd, hr, hpk⟩

theorem eq_of_create (hp : create host request = .ok p) (hq : create host' request = .ok q) :
    q = p := by
  obtain ⟨r, n, -, -, -, -, hcreate⟩ := create_eq request
  exact (Checked.eq_of_ok (hcreate host') hq).trans (Checked.eq_of_ok (hcreate host) hp).symm

theorem size_pos_of_create (h : create host request = .ok p) : 0 < p.region.size := by
  obtain ⟨r, n, -, -, -, hpos, hcreate⟩ := create_eq request
  obtain rfl := Checked.eq_of_ok (hcreate host) h
  exact hpos

/-! ### One call -/

theorem Leases.afterFault_self (leases : Leases) (p : Linear) (c : Call) :
    leases.afterFault p p c = leases := by
  unfold afterFault
  split
  · exact if_neg (Nat.lt_irrefl _)
  · rfl

theorem cursor_lt_withCopy (p : Linear) (address size : Nat) :
    p.cursor < (p.withCopy address size).cursor := by
  have hx := cellExtent_ge size
  rw [cursor_withCopy]
  omega

theorem Leases.afterFault_withCopy (leases : Leases) (p : Linear) (address size : Nat) :
    leases.afterFault p (p.withCopy address size) (.realloc (some address) size) =
      leases.acquire p.cursor size :=
  if_pos (p.cursor_lt_withCopy address size)

/-- A call answers, or refuses an address that is not held. -/
def Call.Closed (p : Linear) (leases : Leases) (c : Call) : Prop :=
  (∃ reply q, c.run p = .ok reply q ∧ p.Ends leases c reply q (leases.after c reply)) ∨
  ∃ cause q, c.run p = .error cause q ∧ IsRefusal cause ∧
    (p.Trim leases → ∃ address, c.pointer? = some address ∧ ¬ leases.Held address) ∧ p.Fails c q

/-- A call answers, or refuses its address; either way the cells form a chain again. -/
def Call.Kept (p : Linear) (leases : Leases) (c : Call) : Prop :=
  (∃ reply q cells', c.run p = .ok reply q ∧ q.Chained (leases.after c reply) cells') ∨
  ∃ cause q cells', c.run p = .error cause q ∧ IsRefusal cause ∧
    q.Chained (leases.afterFault p q c) cells'

/-- A call answers, with the address of a new cell on top if it is asked for memory, or refuses an
address that is not held. -/
def Call.Settled (p : Linear) (leases : Leases) (c : Call) : Prop :=
  (∃ reply q, c.run p = .ok reply q ∧
    (∀ address, reply = .address (some address) → address = p.cursor + 8) ∧
    p.Yields leases c.pointer? q (leases.after c reply)) ∨
  ∃ cause q, c.run p = .error cause q ∧ IsRefusal cause ∧
    (p.Trim leases → ∃ address, c.pointer? = some address ∧ ¬ leases.Held address) ∧
    p.Yields leases c.pointer? q (leases.afterFault p q c)

variable {c : Call} {reply : Reply} {cause : Fault} {size : Nat}

theorem run_realloc_zero (p : Linear) (address : Nat) :
    (Call.realloc (some address) 0).run p =
      (do free address; return .address none : Op Linear Reply) p := by
  have hrun : (Call.realloc (some address) 0).run p =
      (Reply.address <$> (do free address; return none : Op Linear (Option Address)) :
        Op Linear Reply) p := rfl
  rw [hrun, Op.map_apply, Op.bind_apply, Op.bind_apply]
  cases free address p <;> rfl

/-- An array is allocated as a cell for all of its bytes, which are zeroed. -/
theorem Bounded.calloc_eq (hp : p.Bounded) {count size : Nat}
    (hf : p.Fits (count * size)) :
    (Allocator.calloc count size : Op Linear _) p =
      .ok (some (p.cursor + 8)) (p.withZeros (count * size)) := by
  have hw : ¬ Word.bound ≤ count * size := by
    have hx := cellExtent_ge (count * size)
    have hle := hf.2
    have hlt := hp.size_lt
    omega
  have hc := Allocator.calloc_apply count size p
  have ha : (Allocator.alloc (count * size) : Op Linear _) p = _ := hp.alloc_eq hf
  rw [if_neg hw, ha] at hc
  exact hc

theorem Bounded.calloc_none (hp : p.Bounded) {count size : Nat}
    (hf : ¬ p.Fits (count * size)) :
    (Allocator.calloc count size : Op Linear _) p = .ok none p := by
  have hc := Allocator.calloc_apply count size p
  have ha : (Allocator.alloc (count * size) : Op Linear _) p = _ := hp.alloc_none hf
  rw [ha, ite_self] at hc
  exact hc

namespace Chained

theorem alloc_cases (hp : p.Chained leases cells) (size : Nat) :
    alloc size p = .ok none p ∨
      (p.Fits size ∧ alloc size p = .ok (some (p.cursor + 8)) (p.withCell size)) := by
  by_cases hf : p.Fits size
  · exact .inr ⟨hf, hp.alloc_eq hf⟩
  · exact .inl (hp.alloc_none hf)

theorem calloc_eq (hp : p.Chained leases cells) {count size : Nat} (hf : p.Fits (count * size)) :
    (Allocator.calloc count size : Op Linear _) p =
      .ok (some (p.cursor + 8)) (p.withZeros (count * size)) := hp.bounded.calloc_eq hf

theorem calloc_none (hp : p.Chained leases cells) {count size : Nat}
    (hf : ¬ p.Fits (count * size)) :
    (Allocator.calloc count size : Op Linear _) p = .ok none p := hp.bounded.calloc_none hf

theorem closed_alloc (hp : p.Chained leases cells)
    (hrun : c.run p = (Reply.address <$> alloc size : Op Linear Reply) p)
    (hr : c.request? = some size) (hn : leases.after c (.address none) = leases)
    (hs : ∀ a, leases.after c (.address (some a)) = leases.acquire (a - 8) size) :
    Call.Closed p leases c := by
  obtain ha | ⟨hf, ha⟩ := hp.alloc_cases size
  · refine .inl ⟨_, p, hrun.trans (Op.map_ok _ ha), ?_⟩
    rw [hn]
    exact .declined
  · refine .inl ⟨_, p.withCell size, hrun.trans (Op.map_ok _ ha), ?_⟩
    rw [hs, Nat.add_sub_cancel]
    exact .placed hr hf (p.size_withCell size) fun _ _ => rfl

theorem closed_calloc (hp : p.Chained leases cells) (count size : Nat) :
    Call.Closed p leases (.calloc count size) := by
  by_cases hf : p.Fits (count * size)
  · refine .inl ⟨_, p.withZeros (count * size), Op.map_ok _ (hp.calloc_eq hf), ?_⟩
    exact .placed rfl hf (p.size_withZeros _) fun i hi => byte_withZeros hf hi
  · exact .inl ⟨_, p, Op.map_ok _ (hp.calloc_none hf), .declined⟩

theorem closed_free (hp : p.Chained leases cells) {address : Nat}
    (hrun : c.run p = (do free address; return reply : Op Linear Reply) p)
    (hc : c.pointer? = some address) (hr : ∀ a, reply ≠ .address (some a))
    (hd : leases.after c reply = leases.release address) : Call.Closed p leases c := by
  obtain ⟨cause, hcause, he⟩ | ⟨q, -, he, -⟩ := hp.free_cases address
  · exact .inr ⟨cause, p, hrun.trans (Op.bind_error _ he), hcause,
      fun ht => ⟨address, hc, hp.not_held_of_free ht he⟩, .refused⟩
  · refine .inl ⟨reply, q, hrun.trans (Op.bind_ok _ he), ?_⟩
    rw [hd]
    exact .released address hc hr he

theorem closed_move (hp : p.Chained leases cells) (address n : Nat) :
    Call.Closed p leases (.realloc (some address) (n + 1)) := by
  have hrun : (Call.realloc (some address) (n + 1)).run p =
      (Reply.address <$> move address (n + 1) : Op Linear Reply) p := rfl
  obtain ⟨cause, q, he, hcause, hn, hq⟩ | he | ⟨hf, ha, q, he, hfree⟩ :=
    hp.move_cases address (n + 1)
  · refine .inr ⟨cause, q, ?_, hcause, fun ht => ⟨address, rfl, hn ht⟩, ?_⟩
    · rw [hrun, Op.map_apply, he]
    · obtain rfl | ⟨hf, ha, rfl⟩ := hq
      · exact .refused
      · exact .moving address hf ha
  · exact .inl ⟨_, p, hrun.trans (Op.map_ok _ he), .declined⟩
  · exact .inl ⟨_, q, hrun.trans (Op.map_ok _ he), .moved address hf ha hfree⟩

theorem closed (hp : p.Chained leases cells) (c : Call) : Call.Closed p leases c := by
  cases c with
  | alloc size => exact hp.closed_alloc rfl rfl rfl fun _ => rfl
  | calloc count size => exact hp.closed_calloc count size
  | realloc address size =>
    cases address with
    | none => exact hp.closed_alloc rfl rfl rfl fun _ => rfl
    | some address =>
      cases size with
      | zero => exact hp.closed_free (run_realloc_zero p address) rfl nofun rfl
      | succ n => exact hp.closed_move address n
  | free address => exact hp.closed_free rfl rfl nofun rfl
  | dealloc address hint => exact hp.closed_free rfl rfl nofun rfl
  | reset => exact .inl ⟨_, _, rfl, .emptied⟩

theorem ends (hp : p.Chained leases cells) (hrun : c.run p = .ok reply q) :
    p.Ends leases c reply q (leases.after c reply) := by
  obtain ⟨reply', q', he, hq⟩ | ⟨cause, q', he, -⟩ := hp.closed c
  · rw [hrun] at he
    cases he
    exact hq
  · rw [hrun] at he
    cases he

theorem fails (hp : p.Chained leases cells) (hrun : c.run p = .error cause q) : p.Fails c q := by
  obtain ⟨reply, q', he, -⟩ | ⟨cause', q', he, -, -, hq⟩ := hp.closed c
  · rw [hrun] at he
    cases he
  · rw [hrun] at he
    cases he
    exact hq

end Chained

theorem Ends.address_eq {leases' : Leases} {a : Address}
    (h : p.Ends leases c (.address (some a)) q leases') : a = p.cursor + 8 := by
  cases h with
  | placed => rfl
  | moved => rfl
  | released _ _ hr => exact absurd rfl (hr a)

theorem Ends.yields {leases' : Leases} (h : p.Ends leases c reply q leases')
    (hp : p.Chained leases cells) : p.Yields leases c.pointer? q leases' := by
  cases h with
  | declined => exact hp.yields_refl _
  | placed _ hf hs hb => exact hp.yields_fill hf hs (fun i hi => hb i (.inl hi)) _
  | released address hc _ hfree =>
    rw [hc]
    exact hp.yields_free hfree
  | moved address hf ha hfree =>
    have hy := hp.yields_copy hf ha (some address)
    obtain ⟨cells', hq⟩ := hy.chained
    refine hy.trans ?_ (hq.yields_free hfree)
    rw [cursor_withCopy]
    exact Nat.le_add_right ..
  | emptied =>
    have hq : Chained { p with cursor := 0, top := 0, peak := 0 } (fun _ => none) [] :=
      ⟨hp.size_le, Nat.zero_le _, ⟨rfl, rfl⟩, nofun⟩
    exact ⟨⟨[], hq⟩, fun _ => ⟨fun hc => absurd hc (Nat.lt_irrefl 0), nofun⟩, rfl, fun _ _ _ => rfl⟩

theorem Fails.yields (h : p.Fails c q) (hp : p.Chained leases cells) :
    p.Yields leases c.pointer? q (leases.afterFault p q c) := by
  cases h with
  | refused =>
    rw [Leases.afterFault_self]
    exact hp.yields_refl _
  | moving address hf ha =>
    rw [Leases.afterFault_withCopy]
    exact hp.yields_copy hf ha (some address)

namespace Chained

theorem yields_ok (hp : p.Chained leases cells) (hrun : c.run p = .ok reply q) :
    p.Yields leases c.pointer? q (leases.after c reply) :=
  (hp.ends hrun).yields hp

theorem yields_error (hp : p.Chained leases cells) (hrun : c.run p = .error cause q) :
    p.Yields leases c.pointer? q (leases.afterFault p q c) :=
  (hp.fails hrun).yields hp

theorem settled (hp : p.Chained leases cells) (c : Call) : Call.Settled p leases c := by
  obtain ⟨reply, q, hrun, hq⟩ | ⟨cause, q, hrun, hcause, hn, hq⟩ := hp.closed c
  · refine .inl ⟨reply, q, hrun, ?_, hq.yields hp⟩
    rintro address rfl
    exact hq.address_eq
  · exact .inr ⟨cause, q, hrun, hcause, hn, hq.yields hp⟩

theorem kept (hp : p.Chained leases cells) (c : Call) : Call.Kept p leases c := by
  obtain ⟨reply, q, he, -, hy⟩ | ⟨cause, q, he, hcause, -, hy⟩ := hp.settled c
  · obtain ⟨cells', hq⟩ := hy.chained
    exact .inl ⟨reply, q, cells', he, hq⟩
  · obtain ⟨cells', hq⟩ := hy.chained
    exact .inr ⟨cause, q, cells', he, hcause, hq⟩

end Chained

/-! ### Runs -/

theorem Reachable.chained (h : Reachable host request p leases) :
    ∃ cells, p.Chained leases cells := by
  induction h with
  | created hc => exact ⟨[], (chained_of_create hc).2.1⟩
  | returned c _ hrun ih =>
    obtain ⟨cells, hp⟩ := ih
    exact (hp.yields_ok hrun).chained
  | faulted c _ hrun ih =>
    obtain ⟨cells, hp⟩ := ih
    exact (hp.yields_error hrun).chained
  | stored v _ hl ho ho' ih =>
    obtain ⟨cells, hp⟩ := ih
    exact ⟨cells, hp.store hl ho ho' v⟩

theorem Reachable.trim (h : Reachable host request p leases) : p.Trim leases := by
  induction h with
  | created hc =>
    obtain ⟨-, hz⟩ := (chained_of_create hc).2.1.chain
    exact ⟨fun hpos => absurd hz (Nat.ne_of_gt hpos), fun _ _ _ hl => nomatch hl⟩
  | returned c h hrun ih =>
    obtain ⟨cells, hp⟩ := h.chained
    exact (hp.yields_ok hrun).trim ih
  | faulted c h hrun ih =>
    obtain ⟨cells, hp⟩ := h.chained
    exact (hp.yields_error hrun).trim ih
  | stored v _ _ _ _ ih => exact ⟨ih.top_held, ih.size_ne_zero⟩

theorem Reachable.dvd_size (h : Reachable host request p leases) : 8 ∣ p.region.size := by
  induction h with
  | created hc => exact (chained_of_create hc).1
  | returned c h hrun ih =>
    obtain ⟨cells, hp⟩ := h.chained
    rwa [(hp.yields_ok hrun).size]
  | faulted c h hrun ih =>
    obtain ⟨cells, hp⟩ := h.chained
    rwa [(hp.yields_error hrun).size]
  | stored v _ _ _ _ ih => rwa [Region.size_setByte]

/-- The headers from the top down lead to offset zero, over cells that lie one behind the other below
the cursor and are flagged exactly if they were released; and no call finds a broken header or an
endless chain while it rolls back. -/
structure Tiled (p : Linear) (leases : Leases) : Prop where
  dvd_cursor : 8 ∣ p.cursor
  cursor_le : p.cursor ≤ p.region.size
  chain : 0 < p.cursor → ∃ cells, p.Chain leases p.top p.cursor cells ∧
    cells.Pairwise (· > ·) ∧ cells.getLast? = some 0
  rolls_back : ∀ (c : Call) (cause : Fault) (q : Linear), c.run p = .error cause q →
    cause ≠ .endlessChain ∧ ∀ cell, cause ≠ .corruptHeader cell

theorem Reachable.tiled (h : Reachable host request p leases) : p.Tiled leases := by
  obtain ⟨cells, hp⟩ := h.chained
  refine ⟨hp.dvd_cursor, hp.cursor_le, ?_, ?_⟩
  · intro hc
    exact ⟨cells, hp.chain, hp.chain.descending, hp.chain.getLast?_eq hc⟩
  · intro c cause q hrun
    obtain ⟨reply, q', cells', he, -⟩ | ⟨cause', q', cells', he, hcause, -⟩ := hp.kept c
    · rw [hrun] at he
      cases he
    · rw [hrun] at he
      cases he
      obtain rfl | rfl | ⟨cell, rfl⟩ | ⟨cell, rfl⟩ := hcause <;>
        exact ⟨by rintro ⟨⟩, by rintro _ ⟨⟩⟩

/-- A pool of 64 bytes with two cells, of which the lower one is released. -/
theorem tiled_flagged : ∃ p leases, Reachable ⟨fun _ => true⟩ 64 p leases ∧ p.cursor = 48 ∧
    leases 0 = some ⟨10, true⟩ ∧ leases 24 = some ⟨10, false⟩ ∧ p.Tiled leases := by
  have h₀ : Reachable ⟨fun _ => true⟩ 64 _ _ := .created rfl
  have h₁ := h₀.returned (.alloc 10) rfl
  have h₂ := h₁.returned (.alloc 10) rfl
  have h₃ := h₂.returned (.free 8) rfl
  exact ⟨_, _, h₃, rfl, rfl, rfl, h₃.tiled⟩

end FixedPool.Linear
