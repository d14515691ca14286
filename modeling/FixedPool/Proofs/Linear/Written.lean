import FixedPool.Proofs.Capacity

/-!
What the calls on a linear pool write to its region, in every run: the headers of cells, the zeros of
arrays and the copies of moves. Calls may be given any address, and between them anyone may write to
any byte. The offset in a header that is written never takes the bit of the flag.
-/

namespace FixedPool

/-! ### States that steps leave -/

section ending

variable {σ α β : Type} {x : Op σ α} {s : σ}

theorem Op.ending_map (g : α → β) (x : Op σ α) (s : σ) : (g <$> x).ending s = x.ending s := by
  unfold ending
  rw [map_apply]
  cases x s <;> rfl

theorem Op.ending_bind_pure (x : Op σ α) (b : β) (s : σ) :
    (do let _ ← x; return b : Op σ β).ending s = x.ending s := by
  unfold ending
  rw [bind_apply]
  cases x s <;> rfl

end ending

/-- How reading and writing of headers belong together. -/
structure Header.Codec : Prop where
  decode_encode : ∀ h : Header, h.below.toNat < 2 ^ 31 → decode h.encode.1 h.encode.2 = some h
  encode_decode : ∀ tagged check h, decode tagged check = some h →
    h.below.toNat < 2 ^ 31 ∧ h.encode = (tagged, check)
  check_ne : ∀ tagged check h other, decode tagged check = some h → other ≠ check →
    decode tagged other = none
  flip : ∀ tagged check h mask, decode tagged check = some h → mask ≠ 0 → mask.toNat < 2 ^ 31 →
    decode (tagged ^^^ mask) check = none

namespace Linear

/-- A change that a call makes to the bytes of the region. -/
inductive Edit
  | header (cell : Nat) (h : Header)
  | zeros (offset length : Nat)
  | copy (source length target : Nat)
deriving DecidableEq, Repr

def Edit.apply (r : Region) : Edit → Region
  | header cell h => (r.setWord cell h.encode.1).setWord (cell + 4) h.encode.2
  | zeros offset length => r.clear offset length
  | copy source length target => r.move source length target

/-- The header of a new cell on top. -/
def placing (p : Linear) : Edit := .header p.cursor ⟨.ofNat p.top, false⟩

/-- The flagged header of the cell at an address, if a cell that is not flagged begins there. -/
def flagging (p : Linear) (address : Address) : List Edit :=
  match p.cellAt address with
  | .ok (some cell) =>
    match p.header cell with
    | .ok (some h) => if h.freed then [] else [.header cell { h with freed := true }]
    | _ => []
  | _ => []

/-- The changes that a move makes: a new cell, the copy, and what a release then flags. -/
def moving (p : Linear) (address : Address) (size : Nat) : List Edit :=
  if address < p.region.size ∧ p.Fits size then
    p.placing :: .copy address (min size (p.cursor - address)) (p.cursor + 8) ::
      (p.withCopy address size).flagging address
  else []

/-- The changes that a call makes, in this order. -/
def edits (p : Linear) : Call → List Edit
  | .alloc size | .realloc none size => if p.Fits size then [p.placing] else []
  | .calloc count size =>
    if p.Fits (count * size) then [p.placing, .zeros (p.cursor + 8) (count * size)] else []
  | .free address | .dealloc address _ => p.flagging address
  | .realloc (some address) size =>
    if size = 0 then p.flagging address else p.moving address size
  | .reset => []

/-- The states of a pool after any calls, whether they answer or fail, between which any bytes of the
region are written. -/
inductive Exposed (host : Host) (request : Nat) : Linear → Prop
  | created : create host request = .ok p → Exposed host request p
  | called (c : Call) : Exposed host request p → Exposed host request ((c.run : Op _ _).ending p)
  | stored (offset : Nat) (v : UInt8) : Exposed host request p →
      Exposed host request { p with region := p.region.setByte offset v }

/-- The offset in every header among the changes leaves the top bit free. -/
def Plain (es : List Edit) : Prop := ∀ cell h, .header cell h ∈ es → h.below.toNat < 2 ^ 31

/-- A bounded pool whose region differs by these changes. -/
structure Writes (p : Linear) (es : List Edit) (q : Linear) : Prop where
  region_eq : q.region = es.foldl Edit.apply p.region
  bounded : q.Bounded

variable {p q r : Linear} {es es' : List Edit} {cell size address : Nat} {h : Header}
  {host : Host} {request : Nat}

theorem Bounded.writes_nil (hp : p.Bounded) : p.Writes [] p := ⟨rfl, hp⟩

theorem Writes.append (h : p.Writes es q) (h' : q.Writes es' r) : p.Writes (es ++ es') r where
  region_eq := by rw [List.foldl_append, ← h.region_eq, h'.region_eq]
  bounded := h'.bounded

/-! ### New cells -/

theorem region_placing (p : Linear) (size : Nat) :
    (p.withCell size).region = p.placing.apply p.region := by
  rw [region_withCell, region_withHeader]
  rfl

theorem Bounded.writes_withCell (hp : p.Bounded) (hf : p.Fits size) :
    p.Writes [p.placing] (p.withCell size) where
  region_eq := by rw [List.foldl_cons, List.foldl_nil, region_placing]
  bounded := by
    have hx := cellExtent_ge size
    have hs := hp.size_le
    have hle := hf.2
    refine ⟨?_, ?_, ?_⟩
    · rw [size_withCell]
      exact hp.size_le
    · rw [size_withCell, cursor_withCell]
      exact hle
    · rw [top_withCell]
      omega

theorem Bounded.writes_withZeros (hp : p.Bounded) (hf : p.Fits size) :
    p.Writes [p.placing, .zeros (p.cursor + 8) size] (p.withZeros size) where
  region_eq := by
    rw [List.foldl_cons, List.foldl_cons, List.foldl_nil, region_withZeros, region_placing,
      Edit.apply]
  bounded := by
    have hq := (hp.writes_withCell hf).bounded
    refine ⟨?_, ?_, hq.top_lt⟩
    · rw [size_withZeros]
      exact hp.size_le
    · rw [size_withZeros, cursor_withZeros]
      exact hf.2

theorem Bounded.writes_withCopy (hp : p.Bounded) (hf : p.Fits size) (address : Nat) :
    p.Writes [p.placing, .copy address (min size (p.cursor - address)) (p.cursor + 8)]
      (p.withCopy address size) where
  region_eq := by
    rw [List.foldl_cons, List.foldl_cons, List.foldl_nil, region_withCopy, region_placing, Edit.apply]
  bounded := by
    have hq := (hp.writes_withCell hf).bounded
    refine ⟨?_, ?_, ?_⟩
    · rw [size_withCopy]
      exact hp.size_le
    · rw [size_withCopy, cursor_withCopy]
      exact hf.2
    · rw [top_withCopy, ← top_withCell p size]
      exact hq.top_lt

/-! ### Releases -/

theorem Bounded.writes_withHeader (hp : p.Bounded) (cell : Nat) (h : Header) :
    p.Writes [.header cell h] (p.withHeader cell h) where
  region_eq := by rw [List.foldl_cons, List.foldl_nil, region_withHeader, Edit.apply]
  bounded := by
    refine ⟨?_, ?_, ?_⟩
    · rw [size_withHeader]
      exact hp.size_le
    · rw [size_withHeader, cursor_withHeader]
      exact hp.cursor_le
    · rw [top_withHeader]
      exact hp.top_lt

/-- Rolling back writes nothing, wherever the headers lead that it reads. -/
theorem Bounded.writes_retreatWithin (hp : p.Bounded) (steps : Nat) (hc : cell ≤ p.region.size)
    (hb : h.below.toNat < 2 ^ 31) : p.Writes [] ((retreatWithin steps cell h).ending p) := by
  induction steps generalizing p cell h with
  | zero => exact hp.writes_nil
  | succ steps ih =>
    by_cases hz : cell = 0
    · rw [hz, Op.ending_ok (retreatWithin_zero steps h p)]
      exact ⟨rfl, hp.size_le, Nat.zero_le _, Nat.two_pow_pos 31⟩
    let q : Linear := { p with cursor := cell, top := h.below.toNat }
    have hq : q.Bounded := ⟨hp.size_le, hc, hb⟩
    have hpq : p.Writes [] q := ⟨rfl, hq⟩
    have hstep : retreatWithin (steps + 1) cell h p = _ := retreatWithin_succ hz
    cases hh : p.header h.below.toNat with
    | error cause =>
      rw [hh] at hstep
      rw [Op.ending_error hstep]
      exact hpq
    | ok found =>
      rw [hh] at hstep
      cases found with
      | none =>
        rw [Op.ending_error hstep]
        exact hpq
      | some next =>
        have hend := end_le_of_header hh
        have hlt := below_lt_of_header hp.size_lt hend hh
        rw [Op.ending, hstep, ← Op.ending]
        split
        · have hle : h.below.toNat ≤ q.region.size := Nat.le_trans (Nat.le_add_right _ 8) hend
          exact hpq.append (ih hq hle hlt)
        · exact hpq

theorem Bounded.writes_retreat (hp : p.Bounded) (hc : cell ≤ p.region.size)
    (hb : h.below.toNat < 2 ^ 31) : p.Writes [] ((retreat cell h).ending p) := by
  have hstep : retreat cell h p = retreatWithin (p.region.size + 1) cell h p := rfl
  rw [Op.ending, hstep, ← Op.ending]
  exact hp.writes_retreatWithin _ hc hb

/-- A release is refused and writes nothing, or flags a header and then may roll back. -/
theorem Bounded.free_flags_or (hp : p.Bounded) (address : Address) :
    (p.flagging address = [] ∧ ∃ cause, free address p = .error cause p) ∨
    ∃ cell h, p.header cell = .ok (some h) ∧
      p.flagging address = [.header cell { h with freed := true }] ∧
      free address p =
        (if cell = p.top then retreat cell { h with freed := true } else pure ())
          (p.withHeader cell { h with freed := true }) := by
  cases ha : p.cellAt address with
  | error cause =>
    refine .inl ⟨by rw [flagging, ha], cause, ?_⟩
    simp only [free, Op.bind_apply, Op.get_apply, Op.lift_apply, ha]
  | ok found =>
    cases found with
    | none =>
      refine .inl ⟨by rw [flagging, ha], .notLiveCell, ?_⟩
      simp only [free, Op.bind_apply, Op.get_apply, Op.lift_apply, Op.throw_apply, ha]
    | some cell =>
      cases hh : p.header cell with
      | error cause =>
        refine .inl ⟨by simp only [flagging, ha, hh], cause, ?_⟩
        simp only [free, Op.bind_apply, Op.get_apply, Op.lift_apply, ha, hh]
      | ok found =>
        cases found with
        | none =>
          refine .inl ⟨by simp only [flagging, ha, hh], .badChecksum cell, ?_⟩
          simp only [free, Op.bind_apply, Op.get_apply, Op.lift_apply, Op.throw_apply, ha, hh]
        | some h =>
          cases hf : h.freed with
          | true =>
            refine .inl ⟨by simp only [flagging, ha, hh, hf, ↓reduceIte], .doubleFree cell, ?_⟩
            simp only [free, Op.bind_apply, Op.get_apply, Op.lift_apply, Op.throw_apply, ha, hh,
              hf, ↓reduceIte]
          | false =>
            have hstore := storeHeader_eq hp.size_lt (end_le_of_header hh) { h with freed := true }
            refine .inr ⟨cell, h, hh, ?_, ?_⟩
            · simp only [flagging, ha, hh, hf, Bool.false_eq_true, ↓reduceIte]
            · simp only [free, Op.bind_apply, Op.get_apply, Op.lift_apply, ha, hh, hf,
                Bool.false_eq_true, ↓reduceIte, hstore, top_withHeader]

theorem Bounded.writes_free (hp : p.Bounded) (address : Address) :
    p.Writes (p.flagging address) ((free address).ending p) := by
  obtain ⟨hn, cause, he⟩ | ⟨cell, h, hh, hflag, hstep⟩ := hp.free_flags_or address
  · rw [hn, Op.ending_error he]
    exact hp.writes_nil
  · have hw := hp.writes_withHeader cell { h with freed := true }
    have hend := end_le_of_header hh
    have hlt := below_lt_of_header hp.size_lt hend hh
    rw [hflag, Op.ending, hstep, ← Op.ending]
    split
    · have hle : cell ≤ (p.withHeader cell { h with freed := true }).region.size := by
        rw [size_withHeader]
        exact Nat.le_trans (Nat.le_add_right _ 8) hend
      exact hw.append (hw.bounded.writes_retreat hle hlt)
    · exact hw

/-! ### Calls -/

theorem Bounded.writes_alloc (hp : p.Bounded) (size : Nat) :
    p.Writes (if p.Fits size then [p.placing] else []) ((alloc size).ending p) := by
  split
  next hf =>
    rw [Op.ending_ok (hp.alloc_eq hf)]
    exact hp.writes_withCell hf
  next hf =>
    rw [Op.ending_ok (hp.alloc_none hf)]
    exact hp.writes_nil

theorem Bounded.writes_calloc (hp : p.Bounded) (count size : Nat) :
    p.Writes (p.edits (.calloc count size))
      ((Allocator.calloc count size : Op Linear _).ending p) := by
  rw [edits]
  split
  next hf =>
    rw [Op.ending_ok (hp.calloc_eq hf)]
    exact hp.writes_withZeros hf
  next hf =>
    rw [Op.ending_ok (hp.calloc_none hf)]
    exact hp.writes_nil

theorem Bounded.writes_move (hp : p.Bounded) (address size : Nat) :
    p.Writes (p.moving address size) ((move address size).ending p) := by
  by_cases ha : address < p.region.size
  · by_cases hf : p.Fits size
    · have hw := hp.writes_withCopy hf address
      have hmoved := hw.append (hw.bounded.writes_free address)
      rw [List.cons_append, List.cons_append, List.nil_append] at hmoved
      rw [moving, if_pos ⟨ha, hf⟩, Op.ending, hp.move_eq ha hf, ← Op.ending, Op.ending_bind_pure]
      exact hmoved
    · rw [moving, if_neg fun h => hf h.2, Op.ending_ok (hp.move_none ha hf)]
      exact hp.writes_nil
  · rw [moving, if_neg fun h => ha h.1, Op.ending_error (move_error (Nat.le_of_not_lt ha) _)]
    exact hp.writes_nil

theorem Bounded.writes_realloc (hp : p.Bounded) (address size : Nat) :
    p.Writes (p.edits (.realloc (some address) size))
      ((realloc (some address) size).ending p) := by
  rw [edits, realloc]
  split
  · rw [Op.ending_bind_pure]
    exact hp.writes_free address
  · exact hp.writes_move address size

/-- A call changes the region as its list of changes says, whether it answers or fails. -/
theorem Bounded.writes_run (hp : p.Bounded) (c : Call) :
    p.Writes (p.edits c) ((c.run : Op Linear Reply).ending p) := by
  cases c with
  | alloc size =>
    rw [Call.run, Op.ending_map]
    exact hp.writes_alloc size
  | calloc count size =>
    rw [Call.run, Op.ending_map]
    exact hp.writes_calloc count size
  | realloc pointer size =>
    rw [Call.run, Op.ending_map]
    cases pointer with
    | none => exact hp.writes_alloc size
    | some address => exact hp.writes_realloc address size
  | free address =>
    rw [Call.run, Op.ending_bind_pure]
    exact hp.writes_free address
  | dealloc address hint =>
    rw [Call.run, Op.ending_bind_pure]
    exact hp.writes_free address
  | reset => exact ⟨rfl, hp.size_le, Nat.zero_le _, Nat.two_pow_pos 31⟩

/-! ### Headers that are written -/

theorem below_and_freedBit (hb : h.below.toNat < 2 ^ 31) : h.below &&& Header.freedBit = 0 := by
  have hf := Header.and_freedBit_ne_zero h.below
  rw [decide_eq_false (Nat.not_le_of_gt hb), bne_eq_false_iff_eq] at hf
  exact hf

theorem plain_nil : Plain [] := nofun

theorem Bounded.plain_placing (hp : p.Bounded) (h : Plain es) : Plain (p.placing :: es) := by
  intro cell g hm
  obtain hm | hm := List.mem_cons.1 hm
  · rw [placing, Edit.header.injEq] at hm
    have ht := hp.top_lt
    rw [hm.2, UInt32.toNat_ofNat', Nat.mod_eq_of_lt (by omega)]
    exact ht
  · exact h cell g hm

theorem plain_zeros (offset length : Nat) : Plain [.zeros offset length] := by
  intro cell g hm
  cases List.mem_singleton.1 hm

theorem plain_copy (h : Plain es) (source length target : Nat) :
    Plain (.copy source length target :: es) := by
  intro cell g hm
  obtain hm | hm := List.mem_cons.1 hm
  · cases hm
  · exact h cell g hm

/-- A header that is flagged was read before, so that its offset is as small as any that reads. -/
theorem Bounded.plain_flagging (hp : p.Bounded) (address : Address) :
    Plain (p.flagging address) := by
  obtain ⟨hn, -⟩ | ⟨c, g, hh, hflag, -⟩ := hp.free_flags_or address
  · rw [hn]
    exact plain_nil
  · intro cell h hm
    have hlt := below_lt_of_header hp.size_lt (end_le_of_header hh) hh
    rw [hflag, List.mem_singleton, Edit.header.injEq] at hm
    rw [hm.2]
    exact hlt

theorem Bounded.plain_moving (hp : p.Bounded) (address size : Nat) :
    Plain (p.moving address size) := by
  rw [moving]
  split
  next hm =>
    have hq := (hp.writes_withCopy hm.2 address).bounded
    exact hp.plain_placing (plain_copy (hq.plain_flagging address) _ _ _)
  next => exact plain_nil

theorem Bounded.plain_edits (hp : p.Bounded) (c : Call) : Plain (p.edits c) := by
  have hplaced {size : Nat} : Plain (if p.Fits size then [p.placing] else []) := by
    split
    · exact hp.plain_placing plain_nil
    · exact plain_nil
  cases c with
  | alloc size => exact hplaced
  | calloc count size =>
    rw [edits]
    split
    · exact hp.plain_placing (plain_zeros _ _)
    · exact plain_nil
  | realloc pointer size =>
    cases pointer with
    | none => exact hplaced
    | some address =>
      rw [edits]
      split
      · exact hp.plain_flagging address
      · exact hp.plain_moving address size
  | free address => exact hp.plain_flagging address
  | dealloc address hint => exact hp.plain_flagging address
  | reset => exact plain_nil

/-! ### Runs -/

theorem Exposed.bounded (h : Exposed host request p) : p.Bounded := by
  induction h with
  | created hc => exact (chained_of_create hc).2.1.bounded
  | called c _ ih => exact (ih.writes_run c).bounded
  | @stored p offset v _ ih =>
    have hs := p.region.size_setByte offset v
    exact ⟨hs.trans_le ih.size_le, ih.cursor_le.trans_eq hs.symm, ih.top_lt⟩

end Linear

theorem Header.codec : Header.Codec where
  decode_encode _ := decode_encode
  encode_decode _ _ _ hd := ⟨below_lt_of_decode hd, encode_of_decode hd⟩
  check_ne _ _ _ _ := decode_of_check_ne
  flip _ _ _ _ := decode_of_flip

/-- The words of a header tell it, and every header that a run writes has an offset that leaves the
bit of the flag alone. -/
theorem Linear.writes_readable_headers (host : Host) (request : Nat) :
    Header.Codec ∧ ∀ p, Exposed host request p → ∀ c : Call,
      ((c.run : Op Linear Reply).ending p).region = (p.edits c).foldl Edit.apply p.region ∧
      ∀ cell h, .header cell h ∈ p.edits c →
        h.below.toNat < 2 ^ 31 ∧ h.below &&& Header.freedBit = 0 := by
  refine ⟨Header.codec, ?_⟩
  intro p hp c
  have hb := hp.bounded
  refine ⟨(hb.writes_run c).region_eq, ?_⟩
  intro cell h hm
  have hlt := hb.plain_edits c cell h hm
  exact ⟨hlt, below_and_freedBit hlt⟩

/-- The second of two cells moves to the top of a pool of 64 bytes. -/
theorem Linear.writes_readable_headers_moving : ∃ p, Exposed ⟨fun _ => true⟩ 64 p ∧
    p.edits (.realloc (some 32) 4) =
      [.header 48 ⟨24, false⟩, .copy 32 4 56, .header 24 ⟨0, true⟩] ∧
    ((Call.realloc (some 32) 4).run.ending p).region =
      (p.edits (.realloc (some 32) 4)).foldl Edit.apply p.region ∧
    ∀ cell h, .header cell h ∈ p.edits (.realloc (some 32) 4) →
      h.below.toNat < 2 ^ 31 ∧ h.below &&& Header.freedBit = 0 := by
  obtain ⟨-, hwrites⟩ := writes_readable_headers ⟨fun _ => true⟩ 64
  have h₀ : Exposed ⟨fun _ => true⟩ 64 ⟨⟨Region.zeros 64⟩, 0, 0, 0⟩ := .created rfl
  have h := (h₀.called (.alloc 10)).called (.alloc 10)
  obtain ⟨hregion, hheaders⟩ := hwrites _ h (.realloc (some 32) 4)
  refine ⟨_, h, ?_, hregion, hheaders⟩
  decide +kernel

end FixedPool
