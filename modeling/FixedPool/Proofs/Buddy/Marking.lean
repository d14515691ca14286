import FixedPool.Proofs.Buddy.Bitmap

/-!
The bitmap over a sequence of changes: it remembers of every block whether the last change that
named the block marked it, and no change of one block is seen at another.
-/

namespace FixedPool

/-- The blocks of the first `count` tiers. -/
def Block.Among (count : Nat) (b : Block) : Prop := b.tier < count ∧ b.index < 2 ^ b.tier

instance (count : Nat) (b : Block) : Decidable (b.Among count) :=
  inferInstanceAs (Decidable (_ ∧ _))

namespace Bitmap

/-- A change of the mark of one block. -/
inductive Change
  | mark (b : Block)
  | unmark (b : Block)
deriving DecidableEq

namespace Change

/-- The block that a change names. -/
def block : Change → Block
  | .mark b => b
  | .unmark b => b

def apply : Change → Op Bitmap Unit
  | .mark b => Bitmap.mark b
  | .unmark b => Bitmap.unmark b

/-- The last of the changes that name a block. -/
def last (b : Block) (cs : List Change) : Option Change := cs.reverse.find? (·.block = b)

theorem last_cons (b : Block) (c : Change) (cs : List Change) :
    last b (c :: cs) = (last b cs).or (if c.block = b then some c else none) := by
  rw [last, List.reverse_cons, List.find?_append, List.find?_singleton]
  simp only [decide_eq_true_eq]
  rfl

end Change

variable {m : Bitmap} {count : Nat} {a b : Block} {c : Change} {cs : List Change}

/-! ### One change -/

theorem Covers.mark_ok (hm : m.Covers count) (hb : b.Among count) :
    mark b m = .ok () (m.setBit (2 ^ b.tier + b.index)) := by
  rw [mark, Op.get_bind, Op.lift_bind _ (hm.bitOf_ok hb.1 hb.2)]
  rfl

theorem Covers.unmark_ok (hm : m.Covers count) (hb : b.Among count) :
    unmark b m = .ok () (m.clearBit (2 ^ b.tier + b.index)) := by
  rw [unmark, Op.get_bind, Op.lift_bind _ (hm.bitOf_ok hb.1 hb.2)]
  rfl

/-- A change decides on the mark of the block that it names, and leaves all others. -/
theorem Covers.apply_change (hm : m.Covers count) (hc : c.block.Among count) :
    ∃ m', c.apply m = .ok () m' ∧ m'.Covers count ∧ ∀ a, a.Among count →
      (m'.Marked a ↔ if c.block = a then c = .mark a else m.Marked a) := by
  cases c with
  | mark b =>
    have hb : b.Among count := hc
    refine ⟨_, hm.mark_ok hb, hm.setBit hb.1 hb.2, ?_⟩
    intro a ha
    rw [hm.marked_setBit hb.1 hb.2 ha.2]
    by_cases hba : b = a
    · simp [Change.block, hba]
    · simp [Change.block, hba, Ne.symm hba]
  | unmark b =>
    have hb : b.Among count := hc
    refine ⟨_, hm.unmark_ok hb, hm.clearBit _, ?_⟩
    intro a ha
    rw [marked_clearBit m hb.2 ha.2]
    by_cases hba : b = a
    · simp [Change.block, hba]
    · simp [Change.block, hba, Ne.symm hba]

/-! ### Sequences of changes -/

/-- Of each block the last change that names it decides, and where none does the mark stays. -/
theorem Covers.apply_changes (hm : m.Covers count) (hc : ∀ c ∈ cs, c.block.Among count) :
    ∃ m', cs.forM Change.apply m = .ok () m' ∧ m'.Covers count ∧ ∀ b, b.Among count →
      (m'.Marked b ↔ (Change.last b cs).elim (m.Marked b) (· = .mark b)) := by
  induction cs generalizing m with
  | nil => exact ⟨m, rfl, hm, fun b _ => Iff.rfl⟩
  | cons c cs ih =>
    obtain ⟨m₁, hr₁, hm₁, h₁⟩ := hm.apply_change (hc c List.mem_cons_self)
    obtain ⟨m₂, hr₂, hm₂, h₂⟩ := ih hm₁ fun x hx => hc x (List.mem_cons_of_mem c hx)
    refine ⟨m₂, (Op.bind_ok (fun _ => cs.forM Change.apply) hr₁).trans hr₂, hm₂, ?_⟩
    intro b hb
    rw [h₂ b hb, Change.last_cons]
    cases Change.last b cs with
    | some d => rfl
    | none =>
      -- No later change names the block, so what this one left stands.
      change m₁.Marked b ↔ _
      rw [h₁ b hb]
      by_cases hcb : c.block = b
      · simp [hcb]
      · simp [hcb]

/-- No two blocks share a bit. -/
theorem Covers.bitOf_inj (hm : m.Covers count) (ha : a.Among count) (hb : b.Among count)
    (h : m.bitOf a = m.bitOf b) : a = b := by
  rw [hm.bitOf_ok ha.1 ha.2, hm.bitOf_ok hb.1 hb.2] at h
  exact Block.place_inj ha.2 hb.2 (Except.ok.inj h)

/-- All changes of the blocks of a new map can be made, and a block is then marked if the last
change that named it marked it. The largest capacity has 60 tiers. -/
theorem remembers (h : count ≤ 60) :
    ∃ m₀, empty count = .ok m₀ ∧ ∀ cs : List Change, (∀ c ∈ cs, c.block.Among count) →
      ∃ m, cs.forM Change.apply m₀ = .ok () m ∧
        (∀ b, b.Among count →
          m.isMarked b = .ok (decide (Change.last b cs = some (.mark b)))) ∧
        ∀ a b, a.Among count → b.Among count → m.bitOf a = m.bitOf b → a = b := by
  obtain ⟨m₀, he, hm₀, hnone⟩ := empty_ok h
  refine ⟨m₀, he, ?_⟩
  intro cs hc
  obtain ⟨m, hr, hm, hmarked⟩ := hm₀.apply_changes hc
  refine ⟨m, hr, ?_, fun a b => hm.bitOf_inj⟩
  intro b hb
  rw [hm.isMarked_ok hb.1 hb.2, decide_eq_decide.2]
  rw [hmarked b hb]
  cases Change.last b cs with
  | none => simp [hnone b]
  | some c => simp

/-- The last block of tier 5 and the first one of tier 6 have bits on both sides of a word's end,
and so have the last of tier 6 and the first of tier 7. -/
theorem remembers_neighbours : 8 ≤ 60 ∧ ∃ m₀ m, empty 8 = .ok m₀ ∧
    [.mark ⟨5, 31⟩, .mark ⟨6, 0⟩, .mark ⟨7, 0⟩, .unmark ⟨6, 0⟩].forM Change.apply m₀ = .ok () m ∧
    m.isMarked ⟨5, 31⟩ = .ok true ∧ m.isMarked ⟨6, 0⟩ = .ok false ∧
    m.isMarked ⟨6, 63⟩ = .ok false ∧ m.isMarked ⟨7, 0⟩ = .ok true := by
  obtain ⟨m₀, he, hall⟩ := remembers (show 8 ≤ 60 by decide)
  obtain ⟨m, hr, hmarks, -⟩ :=
    hall [.mark ⟨5, 31⟩, .mark ⟨6, 0⟩, .mark ⟨7, 0⟩, .unmark ⟨6, 0⟩] (by decide)
  exact ⟨by decide, m₀, m, he, hr, hmarks _ (by decide), hmarks _ (by decide),
    hmarks _ (by decide), hmarks _ (by decide)⟩

end Bitmap

end FixedPool
