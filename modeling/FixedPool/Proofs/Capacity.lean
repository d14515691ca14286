import FixedPool.Proofs.Buddy.Run
import FixedPool.Proofs.Linear.Run

/-!
The capacity of a pool is settled when it is built. No call changes it, in whatever state the pool
is and whatever address it is given, whether the call answers or fails; nor does writing to the bytes.
-/

namespace FixedPool

variable {σ α β γ : Type}

/-! ### What steps keep -/

/-- The state that a step leaves, whether it answers or fails. -/
def Op.ending (x : Op σ α) (s : σ) : σ :=
  match x s with
  | .ok _ t => t
  | .error _ t => t

/-- From every state, a step leaves one with the same `f`. -/
def Op.Keeps (f : σ → γ) (x : Op σ α) : Prop := ∀ s, f (x.ending s) = f s

variable {f : σ → γ} {x : Op σ α}

theorem Op.ending_ok {s t : σ} {a : α} (h : x s = .ok a t) : x.ending s = t := by
  rw [ending, h]

theorem Op.ending_error {s t : σ} {cause : Fault} (h : x s = .error cause t) : x.ending s = t := by
  rw [ending, h]

theorem Op.Keeps.pure (a : α) : (pure a : Op σ α).Keeps f := fun _ => rfl

theorem Op.Keeps.throw (cause : Fault) : (throw cause : Op σ α).Keeps f := fun _ => rfl

theorem Op.Keeps.get : (get : Op σ σ).Keeps f := fun _ => rfl

theorem Op.Keeps.modify {g : σ → σ} (hg : ∀ s, f (g s) = f s) :
    (modify g : Op σ PUnit).Keeps f := hg

theorem Op.Keeps.lift (x : Checked α) : (liftM x : Op σ α).Keeps f := by
  intro s
  cases x with
  | ok a => rfl
  | error cause => rfl

theorem Op.Keeps.bind {y : α → Op σ β} (hx : x.Keeps f) (hy : ∀ a, (y a).Keeps f) :
    (x >>= y).Keeps f := by
  intro s
  have hs := hx s
  cases h : x s with
  | error cause t =>
    rw [ending_error h] at hs
    rwa [ending_error (bind_error y h)]
  | ok a t =>
    rw [ending_ok h] at hs
    have ht := (hy a t).trans hs
    rw [ending] at ht ⊢
    rwa [bind_ok y h]

theorem Op.Keeps.map (g : α → β) (hx : x.Keeps f) : (g <$> x).Keeps f := by
  intro s
  have hs := hx s
  rw [ending] at hs ⊢
  rw [map_apply]
  cases h : x s with
  | ok a t =>
    rw [h] at hs
    exact hs
  | error cause t =>
    rw [h] at hs
    exact hs

/-! ### Buddy pools -/

namespace Buddy

variable (b : Block) (tier size : Nat) (address : Address)

theorem keeps_mark : (mark b).Keeps tiers :=
  .bind .get fun _ => .bind (.lift _) fun _ => .modify fun _ => rfl

theorem keeps_unmark : (unmark b).Keeps tiers :=
  .bind .get fun _ => .bind (.lift _) fun _ => .modify fun _ => rfl

theorem keeps_setHead (index : Option Nat) : (setHead tier index).Keeps tiers :=
  .bind .get fun _ => .bind (.lift _) fun _ => .modify fun _ => rfl

theorem keeps_storeLink (offset : Nat) (link : Option Nat) : (storeLink offset link).Keeps tiers :=
  .bind .get fun _ => .bind (.lift _) fun _ => .modify fun _ => rfl

theorem keeps_setBefore (link : Option Nat) : (setBefore b link).Keeps tiers :=
  .bind .get fun _ => .bind (.lift _) fun _ => keeps_storeLink _ _

theorem keeps_setBehind (link : Option Nat) : (setBehind b link).Keeps tiers :=
  .bind .get fun _ => .bind (.lift _) fun _ => .bind (.lift _) fun _ => keeps_storeLink _ _

theorem keeps_push : (push b).Keeps tiers := by
  unfold push
  refine .bind .get fun p => .bind (.lift _) fun first => .bind (keeps_setBefore _ _) fun _ =>
    .bind (keeps_setBehind _ _) fun _ => ?_
  cases first with
  | none => exact keeps_setHead _ _
  | some index =>
    exact .bind (.lift _) fun _ => .bind (keeps_setBefore _ _) fun _ => keeps_setHead _ _

/-- The last step of taking a block out of its list. -/
theorem keeps_setBefore_of (before behind : Option Nat) :
    (do if let some index := behind then
      setBefore (← Block.of b.tier index) before : Op Buddy Unit).Keeps tiers := by
  cases behind with
  | none => exact .pure ()
  | some index => exact .bind (.lift _) fun _ => keeps_setBefore _ _

theorem keeps_erase : (erase b).Keeps tiers := by
  unfold erase
  refine .bind .get fun p => .bind (.lift _) ?_
  rintro ⟨before, behind⟩
  cases before with
  | none =>
    refine .bind .get fun _ => .bind (.lift _) fun first => ?_
    dsimp only
    split
    · exact .bind (.throw _) fun _ => .bind (keeps_setHead _ _) fun _ => keeps_setBefore_of b _ _
    · exact .bind (keeps_setHead _ _) fun _ => keeps_setBefore_of b _ _
  | some index =>
    exact .bind (.lift _) fun _ => .bind (keeps_setBehind _ _) fun _ => keeps_setBefore_of b _ _

theorem keeps_pop : (pop tier).Keeps tiers := by
  unfold pop
  refine .bind .get fun p => .bind (.lift _) fun found => ?_
  cases found with
  | none => exact .pure none
  | some index => exact .bind (.lift _) fun b => .bind (keeps_erase b) fun _ => .pure _

theorem keeps_take : (take tier).Keeps tiers := by
  unfold take
  refine .bind (keeps_pop tier) fun found => ?_
  cases found with
  | none => exact .pure none
  | some b => exact .bind (keeps_mark b) fun _ => .pure _

theorem keeps_coalesceAt (index : Nat) : (coalesceAt tier index).Keeps tiers := by
  induction tier generalizing index with
  | zero => exact .bind (keeps_unmark _) fun _ => keeps_push _
  | succ tier ih =>
    unfold coalesceAt
    refine .bind (keeps_unmark _) fun _ => .bind .get fun p => .bind (.lift _) fun marked => ?_
    cases marked with
    | true => exact keeps_push _
    | false => exact .bind (keeps_erase _) fun _ => ih _

theorem keeps_carve : (carve tier).Keeps tiers := by
  induction tier with
  | zero => exact keeps_take 0
  | succ tier ih =>
    unfold carve
    refine .bind (keeps_take _) fun found => ?_
    cases found with
    | some b => exact .pure _
    | none =>
      refine .bind ih fun whole => ?_
      cases whole with
      | none => exact .pure none
      | some whole =>
        exact .bind (keeps_mark _) fun _ => .bind (keeps_mark _) fun _ =>
          .bind (keeps_coalesceAt _ _) fun _ => .pure _

theorem keeps_retire : (retire b).Keeps tiers :=
  .bind .get fun _ => .bind .get fun _ => .bind (.lift _) fun _ => .bind (.lift _) fun _ =>
    .bind (.modify fun _ => rfl) fun _ => keeps_coalesceAt _ _

theorem keeps_transfer (target : Address) (length : Nat) :
    (transfer b target length).Keeps tiers :=
  .bind .get fun _ => .bind (.lift _) fun _ => .bind .get fun _ => .bind (.lift _) fun _ =>
    .bind .get fun _ => .bind (.lift _) fun _ => .bind (.modify fun _ => rfl) fun _ =>
      keeps_retire b

theorem keeps_alloc : (alloc size).Keeps tiers := by
  unfold alloc
  refine .bind .get fun p => .bind (.lift _) fun fit => ?_
  cases fit with
  | none => exact .pure none
  | some tier =>
    refine .bind (keeps_carve tier) fun found => ?_
    cases found with
    | none => exact .pure none
    | some b =>
      exact .bind .get fun _ => .bind .get fun _ => .bind (.lift _) fun _ =>
        .bind (.lift _) fun _ => .bind (.modify fun _ => rfl) fun _ => .bind .get fun _ =>
          .bind (.lift _) fun _ => .bind .get fun _ => .bind (.lift _) fun _ => .pure _

theorem keeps_free : (free address).Keeps tiers := by
  unfold free
  refine .bind .get fun p => .bind (.lift _) fun _ => .bind .get fun _ => .bind (.lift _)
    fun found => ?_
  cases found with
  | none => exact .throw _
  | some b => exact keeps_retire b

theorem keeps_dealloc (hint : Nat) : (dealloc address hint).Keeps tiers := by
  unfold dealloc
  refine .bind .get fun p => .bind (.lift _) fun _ => .bind .get fun _ => .bind (.lift _)
    fun hinted => ?_
  cases hinted with
  | some b => exact keeps_retire b
  | none =>
    refine .bind .get fun _ => .bind (.lift _) fun found => ?_
    cases found with
    | none => exact .throw _
    | some b => exact keeps_retire b

theorem keeps_relocate (length : Nat) (kept : Option Address) :
    (relocate b size length kept).Keeps tiers := by
  unfold relocate
  refine .bind (keeps_alloc size) fun found => ?_
  cases found with
  | none => exact .pure kept
  | some target => exact .bind (keeps_transfer b _ _) fun _ => .pure _

theorem keeps_resize : (resize address size).Keeps tiers := by
  unfold resize
  refine .bind .get fun p => .bind (.lift _) fun _ => .bind .get fun _ => .bind (.lift _)
    fun found => ?_
  cases found with
  | none => exact .throw _
  | some b =>
    refine .bind .get fun _ => .bind (.lift _) fun extent => ?_
    split
    · exact keeps_relocate b size extent none
    · split
      · exact keeps_relocate b size size (some address)
      · exact .pure _

theorem keeps_realloc (pointer : Option Address) : (realloc pointer size).Keeps tiers := by
  unfold realloc
  cases pointer with
  | none => exact keeps_alloc size
  | some address =>
    dsimp only
    split
    · exact .bind (keeps_free address) fun _ => .pure none
    · exact keeps_resize size address

end Buddy

/-! ### Linear pools -/

namespace Linear

/-- The number of bytes of the region, which is the capacity. -/
def extent (p : Linear) : Nat := p.region.size

variable (cell size : Nat) (h : Header) (address : Address)

theorem keeps_storeWord (word : UInt32) : (storeWord cell word).Keeps extent := by
  intro p
  cases h : p.region.storeWord cell word with
  | ok r =>
    have hr : storeWord cell word p = .ok () { p with region := r } := Op.lift_bind _ h p
    rw [Op.ending_ok hr]
    exact Region.size_of_storeWord h
  | error cause =>
    have hr : storeWord cell word p = .error cause p := Op.lift_bind_error _ h p
    rw [Op.ending_error hr]

theorem keeps_storeHeader : (storeHeader cell h).Keeps extent :=
  .bind (keeps_storeWord _ _) fun _ => .bind (.lift _) fun _ => keeps_storeWord _ _

theorem keeps_retreatWithin (steps : Nat) : (retreatWithin steps cell h).Keeps extent := by
  induction steps generalizing cell h with
  | zero => exact .throw _
  | succ steps ih =>
    unfold retreatWithin
    refine .bind (.modify fun _ => rfl) fun _ => ?_
    split
    · exact .modify fun _ => rfl
    · refine .bind (.modify fun _ => rfl) fun _ => .bind .get fun _ => .bind (.lift _)
        fun found => ?_
      cases found with
      | none => exact .throw _
      | some next =>
        dsimp only
        split
        · exact ih _ _
        · exact .pure ()

theorem keeps_alloc : (alloc size).Keeps extent := by
  unfold alloc
  split
  · exact .pure none
  · cases extentOf size with
    | none => exact .pure none
    | some extent =>
      refine .bind .get fun _ => .bind .get fun _ => .bind (.lift _) fun _ => ?_
      dsimp only
      split
      · exact .pure none
      · exact .bind .get fun _ => .bind .get fun _ => .bind (keeps_storeHeader _ _) fun _ =>
          .bind (.modify fun _ => rfl) fun _ => .bind (.lift _) fun _ =>
          .bind (.modify fun _ => rfl) fun _ => .bind .get fun _ => .bind (.lift _) fun _ =>
          .bind (.lift _) fun _ => .pure _

theorem keeps_free : (free address).Keeps extent := by
  unfold free
  refine .bind .get fun _ => .bind (.lift _) fun found => ?_
  cases found with
  | none => exact .throw _
  | some cell =>
    refine .bind .get fun _ => .bind (.lift _) fun header => ?_
    cases header with
    | none => exact .throw _
    | some h =>
      have hlast : (do
          storeHeader cell { h with freed := true }
          if cell = (← MonadState.get).top then
            retreat cell { h with freed := true } : Op Linear Unit).Keeps extent := by
        refine .bind (keeps_storeHeader _ _) fun _ => .bind .get fun p => ?_
        split
        · exact .bind .get fun _ => keeps_retreatWithin _ _ _
        · exact .pure ()
      dsimp only
      split
      · exact .bind (.throw _) fun _ => hlast
      · exact hlast

theorem keeps_move : (move address size).Keeps extent := by
  unfold move
  refine .bind .get fun _ => .bind (.lift _) fun _ => .bind .get fun _ =>
    .bind (keeps_alloc size) fun found => ?_
  cases found with
  | none => exact .pure none
  | some fresh =>
    refine .bind .get fun _ => .bind (.lift _) fun _ => .bind .get fun _ =>
      .bind (.lift _) fun _ => .bind (.modify fun p => ?_) fun _ =>
      .bind (keeps_free address) fun _ => .pure _
    simp only [extent, Region.size_move]

theorem keeps_realloc (pointer : Option Address) : (realloc pointer size).Keeps extent := by
  unfold realloc
  cases pointer with
  | none => exact keeps_alloc size
  | some address =>
    dsimp only
    split
    · exact .bind (keeps_free address) fun _ => .pure none
    · exact keeps_move size address

end Linear

/-! ### Either pool -/

/-- The capacity of a pool is a positive number of 32 bits and stays what it was when the pool was
built. A pool is built unless the host refuses its region. -/
structure Durable (σ : Type) [Allocator σ] : Prop where
  run : ∀ c : Call, (c.run : Op σ Reply).Keeps Allocator.capacity
  store : ∀ (s : σ) (offset : Nat) (v : UInt8),
    Allocator.capacity (Allocator.mapRegion (·.setByte offset v) s) = Allocator.capacity s
  builds : ∀ host request,
    (∃ s : σ, Allocator.create host request = .ok s ∧ 0 < Allocator.capacity s ∧
      Allocator.capacity s < UInt32.size) ∨
    ∃ n, host.grants n = false ∧
      (Allocator.create host request : Except Error σ) = .error (.unmapped n)

theorem Allocator.keeps_calloc [Allocator σ] {count size : Nat}
    (halloc : (alloc (count * size) : Op σ (Option Address)).Keeps capacity)
    (hclear : ∀ (s : σ) (offset length : Nat),
      capacity (mapRegion (·.clear offset length) s) = capacity s) :
    (calloc count size : Op σ (Option Address)).Keeps capacity := by
  unfold calloc
  split
  · exact .pure none
  · refine .bind halloc fun found => ?_
    cases found with
    | none => exact .pure none
    | some address => exact .bind (.modify fun s => hclear s _ _) fun _ => .pure _

theorem Buddy.durable : Durable Buddy where
  run := by
    -- The capacity of a buddy pool is one of the fields that its tiers keep.
    have hkeeps {α : Type} {x : Op Buddy α} (h : x.Keeps tiers) :
        x.Keeps (Allocator.capacity : Buddy → Nat) := fun p => congrArg Tiers.capacity (h p)
    intro c
    cases c with
    | alloc size => exact .map _ (hkeeps (keeps_alloc size))
    | calloc count size =>
      exact .map _ (Allocator.keeps_calloc (hkeeps (keeps_alloc _)) fun _ _ _ => rfl)
    | realloc pointer size => exact .map _ (hkeeps (keeps_realloc size pointer))
    | free address => exact .bind (hkeeps (keeps_free address)) fun _ => .pure _
    | dealloc address hint => exact .bind (hkeeps (keeps_dealloc address hint)) fun _ => .pure _
    | reset => exact fun _ => rfl
  store := fun _ _ _ => rfl
  builds := by
    intro host request
    obtain ⟨p, F, hp, hs, -⟩ | hn := create_cases host request
    · have hpos : 0 < p.tiers.capacity := hs.wellFormed.capacity_eq ▸ p.tiers.extent_pos 0
      exact .inl ⟨p, hp, hpos, Nat.lt_of_le_of_lt (capacity_le_of_create hp) (by decide)⟩
    · exact .inr hn

theorem Linear.durable : Durable Linear where
  run := by
    intro c
    cases c with
    | alloc size => exact .map _ (keeps_alloc size)
    | calloc count size =>
      exact .map _ (Allocator.keeps_calloc (keeps_alloc _) fun p _ _ => p.region.size_clear _ _)
    | realloc pointer size => exact .map _ (keeps_realloc size pointer)
    | free address => exact .bind (keeps_free address) fun _ => .pure _
    | dealloc address hint => exact .bind (keeps_free address) fun _ => .pure _
    | reset => exact fun _ => rfl
  store := fun p offset v => p.region.size_setByte offset v
  builds := by
    intro host request
    obtain ⟨p, hp, -, hc⟩ | hn := create_cases host request
    · exact .inl ⟨p, hp, size_pos_of_create hp, Nat.lt_of_le_of_lt hc.size_le (by decide)⟩
    · exact .inr hn

end FixedPool
