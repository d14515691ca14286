import FixedPool.Buddy.Bitmap
import FixedPool.Proofs.Buddy.Tiers
import Mathlib.Data.Nat.Bitwise

/-!
The bitmap as a set of blocks: setting and clearing the bit of a block changes the answer for that
block alone, since no two blocks share a bit.
-/

namespace FixedPool

namespace Block

variable {a b : Block}

theorem place_ok (ht : b.tier < 63) (hi : b.index < 2 ^ b.tier) :
    b.place = .ok (2 ^ b.tier + b.index) := by
  have hp : 2 ^ (b.tier + 1) ≤ 2 ^ 63 := Nat.pow_le_pow_right (by decide) ht
  rw [Nat.pow_succ] at hp
  have hb : Word.bound = 2 * 2 ^ 63 := rfl
  rw [place, Word.shiftLeft_ok (by omega) (by omega), Checked.ok_bind, Nat.one_mul,
    Word.add_ok (by omega)]

theorem log2_place (h : b.index < 2 ^ b.tier) : (2 ^ b.tier + b.index).log2 = b.tier := by
  rw [Nat.log2_eq_iff (by have := Nat.two_pow_pos b.tier; omega), Nat.pow_succ]
  omega

theorem place_inj (ha : a.index < 2 ^ a.tier) (hb : b.index < 2 ^ b.tier)
    (h : 2 ^ a.tier + a.index = 2 ^ b.tier + b.index) : a = b := by
  have ht := congrArg Nat.log2 h
  rw [log2_place ha, log2_place hb] at ht
  obtain ⟨tier, i⟩ := a
  obtain ⟨tier', j⟩ := b
  cases ht
  cases Nat.add_left_cancel h
  rfl

theorem place_lt {count : Nat} (ht : b.tier < count) (hi : b.index < 2 ^ b.tier) :
    2 ^ b.tier + b.index < 2 ^ count := by
  have hp : 2 ^ (b.tier + 1) ≤ 2 ^ count := Nat.pow_le_pow_right (by decide) ht
  rw [Nat.pow_succ] at hp
  omega

/-- Every place but the first one is that of a block. -/
theorem exists_place {i count : Nat} (h : 0 < i) (hi : i < 2 ^ count) :
    ∃ b : Block, b.tier < count ∧ b.index < 2 ^ b.tier ∧ 2 ^ b.tier + b.index = i := by
  have hl := (Nat.log2_eq_iff (Nat.ne_of_gt h)).1 rfl
  have ht : 2 ^ i.log2 < 2 ^ count := Nat.lt_of_le_of_lt hl.1 hi
  rw [Nat.pow_succ] at hl
  refine ⟨⟨i.log2, i - 2 ^ i.log2⟩, (Nat.pow_lt_pow_iff_right (by decide)).1 ht, ?_, ?_⟩
  · change i - 2 ^ i.log2 < 2 ^ i.log2
    omega
  · exact Nat.add_sub_cancel' hl.1

end Block

namespace Bitmap

variable {m : Bitmap} {i j : Nat} {a b : Block}

/-! ### Bits of words -/

theorem toNat_bitMask (i : Nat) : (bitMask i).toNat = 2 ^ (i % 64) := by
  have hi : i % 64 < 64 := Nat.mod_lt _ (by decide)
  have hp : 2 ^ (i % 64) < 2 ^ 64 := Nat.pow_lt_pow_right (by decide) hi
  have ho : (UInt64.ofNat (i % 64)).toNat = i % 64 :=
    UInt64.toNat_ofNat_of_lt' (Nat.lt_trans hi (by decide))
  rw [bitMask, UInt64.toNat_shiftLeft, ho, Nat.mod_eq_of_lt hi, UInt64.toNat_one,
    Nat.one_shiftLeft, Nat.mod_eq_of_lt hp]

theorem and_bitMask (w : UInt64) (i : Nat) : (w &&& bitMask i != 0) = w.toNat.testBit (i % 64) := by
  have hn : (w &&& bitMask i).toNat = (w.toNat.testBit (i % 64)).toNat * 2 ^ (i % 64) := by
    rw [UInt64.toNat_and, toNat_bitMask, Nat.and_two_pow]
  have hz : w &&& bitMask i = 0 ↔ (w &&& bitMask i).toNat = 0 := UInt64.toNat_inj.symm
  have hp := Nat.two_pow_pos (i % 64)
  cases hb : w.toNat.testBit (i % 64) with
  | false =>
    rw [hb, Bool.toNat_false, Nat.zero_mul] at hn
    rw [hz.2 hn]
    rfl
  | true =>
    rw [hb, Bool.toNat_true, Nat.one_mul] at hn
    rw [bne_iff_ne, ne_eq, hz]
    omega

theorem testBit_or_bitMask (w : UInt64) (i k : Nat) :
    (w ||| bitMask i).toNat.testBit k = (w.toNat.testBit k || decide (i % 64 = k)) := by
  rw [UInt64.toNat_or, toNat_bitMask, Nat.testBit_or, Nat.testBit_two_pow]

theorem testBit_and_not_bitMask (w : UInt64) (i : Nat) {k : Nat} (hk : k < 64) :
    (w &&& ~~~bitMask i).toNat.testBit k = (w.toNat.testBit k && !decide (i % 64 = k)) := by
  have hs : UInt64.size - 1 - (bitMask i).toNat = 2 ^ 64 - ((bitMask i).toNat + 1) := by
    change 2 ^ 64 - 1 - _ = _
    omega
  rw [UInt64.toNat_and, UInt64.toNat_not, hs, Nat.testBit_and,
    Nat.testBit_two_pow_sub_succ (bitMask i).toNat_lt, toNat_bitMask, Nat.testBit_two_pow,
    decide_eq_true hk, Bool.true_and]

/-! ### Bits of the map -/

theorem testBit_eq (m : Bitmap) (i : Nat) :
    m.testBit i = (m.words[i / 64]?.getD 0).toNat.testBit (i % 64) :=
  and_bitMask ..

theorem eq_of_div_mod (hq : i / 64 = j / 64) (hr : i % 64 = j % 64) : i = j := by
  omega

theorem testBit_setBit (h : i / 64 < m.words.size) (j : Nat) :
    (m.setBit i).testBit j = (m.testBit j || decide (i = j)) := by
  rw [testBit_eq, testBit_eq, setBit, Array.getElem?_modify]
  by_cases hq : i / 64 = j / 64
  · rw [if_pos hq, ← hq, Array.getElem?_eq_getElem h]
    change (_ ||| bitMask i).toNat.testBit _ = _
    rw [testBit_or_bitMask]
    have he : i % 64 = j % 64 ↔ i = j := ⟨eq_of_div_mod hq, fun e => e ▸ rfl⟩
    simp only [he, Option.getD_some]
  · have hne : i ≠ j := fun e => hq (e ▸ rfl)
    rw [if_neg hq, decide_eq_false hne, Bool.or_false]

theorem testBit_clearBit (m : Bitmap) (i j : Nat) :
    (m.clearBit i).testBit j = (m.testBit j && !decide (i = j)) := by
  rw [testBit_eq, testBit_eq, clearBit, Array.getElem?_modify]
  by_cases hq : i / 64 = j / 64
  · rw [if_pos hq, ← hq]
    have he : i % 64 = j % 64 ↔ i = j := ⟨eq_of_div_mod hq, fun e => e ▸ rfl⟩
    cases m.words[i / 64]? with
    | none =>
      change Nat.testBit 0 _ = (Nat.testBit 0 _ && _)
      rw [Nat.zero_testBit, Bool.false_and]
    | some w =>
      change (w &&& ~~~bitMask i).toNat.testBit _ = _
      rw [testBit_and_not_bitMask w i (Nat.mod_lt j (by decide))]
      simp only [he, Option.getD_some]
  · have hne : i ≠ j := fun e => hq (e ▸ rfl)
    rw [if_neg hq, decide_eq_false hne, Bool.not_false, Bool.and_true]

@[simp] theorem size_setBit (m : Bitmap) (i : Nat) : (m.setBit i).words.size = m.words.size :=
  Array.size_modify

@[simp] theorem size_clearBit (m : Bitmap) (i : Nat) : (m.clearBit i).words.size = m.words.size :=
  Array.size_modify

theorem eq_of_testBit {m' : Bitmap} (hs : m.words.size = m'.words.size)
    (h : ∀ i, m.testBit i = m'.testBit i) : m = m' := by
  obtain ⟨words⟩ := m
  obtain ⟨words'⟩ := m'
  congr 1
  refine Array.ext hs fun k hk hk' => UInt64.toNat.inj (Nat.eq_of_testBit_eq fun j => ?_)
  by_cases hj : j < 64
  · have hb := h (64 * k + j)
    have hd : (64 * k + j) / 64 = k := by omega
    have hm : (64 * k + j) % 64 = j := by omega
    rw [testBit_eq, testBit_eq, hd, hm, Array.getElem?_eq_getElem hk,
      Array.getElem?_eq_getElem hk'] at hb
    exact hb
  · -- A word has no bits past its 64th.
    have hz : ∀ w : UInt64, w.toNat.testBit j = false := by
      intro w
      have hle : 2 ^ 64 ≤ 2 ^ j := Nat.pow_le_pow_right (by decide) (Nat.le_of_not_lt hj)
      exact Nat.testBit_lt_two_pow (Nat.lt_of_lt_of_le w.toNat_lt hle)
    rw [hz, hz]

/-! ### Marks of blocks -/

/-- The map has the words for the blocks of `count` tiers and no others, and no bit in them is set
but those of such blocks. -/
structure Covers (m : Bitmap) (count : Nat) : Prop where
  count_le : count ≤ 60
  size_eq : m.words.size = (2 ^ count + 63) / 64
  of_testBit : ∀ i, m.testBit i = true → 0 < i ∧ i < 2 ^ count

/-- The block is marked. -/
def Marked (m : Bitmap) (b : Block) : Prop := m.testBit (2 ^ b.tier + b.index) = true

instance (m : Bitmap) (b : Block) : Decidable (m.Marked b) := inferInstanceAs (Decidable (_ = true))

variable {count : Nat}

theorem Covers.div_lt (hm : m.Covers count) (ht : b.tier < count) (hi : b.index < 2 ^ b.tier) :
    (2 ^ b.tier + b.index) / 64 < m.words.size := by
  have := Block.place_lt ht hi
  have := hm.size_eq
  omega

theorem Covers.bitOf_ok (hm : m.Covers count) (ht : b.tier < count) (hi : b.index < 2 ^ b.tier) :
    m.bitOf b = .ok (2 ^ b.tier + b.index) := by
  have := hm.count_le
  rw [bitOf, Block.place_ok (by omega) hi, Checked.ok_bind, if_pos (hm.div_lt ht hi)]
  rfl

theorem Covers.isMarked_ok (hm : m.Covers count) (ht : b.tier < count) (hi : b.index < 2 ^ b.tier) :
    m.isMarked b = .ok (decide (m.Marked b)) := by
  have hd : decide (m.Marked b) = m.testBit (2 ^ b.tier + b.index) := Bool.decide_eq_true
  rw [isMarked, hm.bitOf_ok ht hi, Checked.ok_bind, hd]
  rfl

theorem Covers.setBit (hm : m.Covers count) (ht : b.tier < count) (hi : b.index < 2 ^ b.tier) :
    (m.setBit (2 ^ b.tier + b.index)).Covers count where
  count_le := hm.count_le
  size_eq := (size_setBit ..).trans hm.size_eq
  of_testBit := by
    intro i hb
    rw [testBit_setBit (hm.div_lt ht hi), Bool.or_eq_true, decide_eq_true_iff] at hb
    obtain hb | rfl := hb
    · exact hm.of_testBit i hb
    · exact ⟨Nat.add_pos_left (Nat.two_pow_pos _) _, Block.place_lt ht hi⟩

theorem Covers.clearBit (hm : m.Covers count) (i : Nat) : (m.clearBit i).Covers count where
  count_le := hm.count_le
  size_eq := (size_clearBit ..).trans hm.size_eq
  of_testBit := by
    intro j hb
    rw [testBit_clearBit, Bool.and_eq_true] at hb
    exact hm.of_testBit j hb.1

theorem Covers.marked_setBit (hm : m.Covers count) (ht : b.tier < count)
    (hi : b.index < 2 ^ b.tier) (ha : a.index < 2 ^ a.tier) :
    (m.setBit (2 ^ b.tier + b.index)).Marked a ↔ m.Marked a ∨ a = b := by
  have he : 2 ^ b.tier + b.index = 2 ^ a.tier + a.index ↔ a = b :=
    ⟨fun e => Block.place_inj ha hi e.symm, fun e => e ▸ rfl⟩
  rw [Marked, testBit_setBit (hm.div_lt ht hi), Bool.or_eq_true, decide_eq_true_iff, he, Marked]

theorem marked_clearBit (m : Bitmap) (hi : b.index < 2 ^ b.tier) (ha : a.index < 2 ^ a.tier) :
    (m.clearBit (2 ^ b.tier + b.index)).Marked a ↔ m.Marked a ∧ a ≠ b := by
  have he : 2 ^ b.tier + b.index = 2 ^ a.tier + a.index ↔ a = b :=
    ⟨fun e => Block.place_inj ha hi e.symm, fun e => e ▸ rfl⟩
  rw [Marked, testBit_clearBit, Bool.and_eq_true, Bool.not_eq_true', decide_eq_false_iff_not, he,
    Marked]

theorem empty_ok (h : count ≤ 60) :
    ∃ m, empty count = .ok m ∧ m.Covers count ∧ ∀ b, ¬ m.Marked b := by
  have hp : 2 ^ count ≤ 2 ^ 60 := Nat.pow_le_pow_right (by decide) h
  have hb : Word.bound = 16 * 2 ^ 60 := rfl
  let m : Bitmap := ⟨Array.replicate ((2 ^ count + 63) / 64) 0⟩
  have hz : ∀ i, ¬ m.testBit i = true := by
    intro i
    rw [testBit_eq, Array.getElem?_replicate]
    split <;> simp
  refine ⟨m, ?_, ⟨h, Array.size_replicate, fun i hi => absurd hi (hz i)⟩, fun b => hz _⟩
  rw [empty, Word.shiftLeft_ok (by omega) (by omega), Checked.ok_bind, Nat.one_mul]
  rfl

/-- The marks on the blocks are all that there is in a map. -/
theorem Covers.eq_of_marked {m' : Bitmap} (hm : m.Covers count) (hm' : m'.Covers count)
    (h : ∀ b : Block, b.tier < count → b.index < 2 ^ b.tier → (m.Marked b ↔ m'.Marked b)) :
    m = m' := by
  apply eq_of_testBit (hm.size_eq.trans hm'.size_eq.symm)
  intro i
  rw [Bool.eq_iff_iff]
  by_cases hi : 0 < i ∧ i < 2 ^ count
  · obtain ⟨b, ht, hb, rfl⟩ := Block.exists_place hi.1 hi.2
    exact h b ht hb
  · exact iff_of_false (fun hb => hi (hm.of_testBit i hb)) fun hb => hi (hm'.of_testBit i hb)

end Bitmap

end FixedPool
