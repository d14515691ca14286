import FixedPool.Word
import FixedPool.Proofs.Steps
import Mathlib.Algebra.Group.Nat.Defs
import Mathlib.Order.Bounds.Basic

/-!
Word arithmetic where it does not overflow: rounding to a power of two is division by it, and the
next power of two is the least one that is large enough. At the top of a word, rounding up answers
every multiple that the word holds, except that it overflows at the last one.
-/

namespace FixedPool.Word

variable {n m k a b : Nat}

theorem bound_eq : bound = 2 ^ 64 := rfl

theorem add_ok (h : a + b < bound) : add a b = .ok (a + b) := if_pos h

theorem add_overflow (h : bound ≤ a + b) : add a b = .error .addOverflow :=
  if_neg (Nat.not_lt_of_ge h)

theorem sub_ok (h : b ≤ a) : sub a b = .ok (a - b) := if_pos h

theorem mul_ok (h : a * b < bound) : mul a b = .ok (a * b) := if_pos h

theorem shiftLeft_ok (hb : b < 64) (h : a * 2 ^ b < bound) : shiftLeft a b = .ok (a * 2 ^ b) := by
  rw [shiftLeft, if_pos hb, Nat.shiftLeft_eq, Nat.mod_eq_of_lt h]

/-- Masking off the low bits of a word rounds it down to a multiple of the power of two. -/
theorem and_complement (hn : n < bound) (hk : k ≤ 64) :
    n &&& complement (2 ^ k - 1) = n / 2 ^ k * 2 ^ k := by
  have hp : 2 ^ k - 1 < 2 ^ 64 := by
    have := Nat.pow_le_pow_right (by decide : 0 < 2) hk
    have := Nat.two_pow_pos k
    omega
  have hc : complement (2 ^ k - 1) = 2 ^ 64 - (2 ^ k - 1 + 1) := by
    rw [complement, bound_eq]
    omega
  apply Nat.eq_of_testBit_eq
  intro i
  rw [hc, Nat.testBit_and, Nat.testBit_two_pow_sub_succ hp, Nat.testBit_mul_two_pow,
    Nat.testBit_div_two_pow, Nat.testBit_two_pow_sub_one]
  by_cases hi : i < 64
  · by_cases hik : i < k
    · simp only [hik, decide_true, Bool.not_true, Bool.and_false, Nat.not_le_of_gt hik,
        decide_false, Bool.false_and]
    · have hs : i - k + k = i := by omega
      simp only [hi, hik, hs, Nat.le_of_not_gt hik, decide_true, decide_false, Bool.not_false,
        Bool.and_self, Bool.and_true, Bool.true_and]
  · have hz : ∀ j, 64 ≤ j → n.testBit j = false := by
      intro j hj
      have hle : 2 ^ 64 ≤ 2 ^ j := Nat.pow_le_pow_right (by decide) hj
      exact Nat.testBit_lt_two_pow (Nat.lt_of_lt_of_le hn hle)
    have hs : i - k + k = i := by omega
    rw [hz i (by omega), hs, hz i (by omega)]
    simp only [Bool.false_and, Bool.and_false]

theorem isMultiple_two_pow (n k : Nat) : isMultiple n (2 ^ k) = .ok (decide (2 ^ k ∣ n)) := by
  rw [isMultiple, sub_ok (Nat.two_pow_pos k), Checked.ok_bind, Nat.and_two_pow_sub_one_eq_mod]
  simp only [Nat.dvd_iff_mod_eq_zero]
  rfl

theorem roundUp_two_pow (hk : k ≤ 64) (h : n + 2 ^ k < bound) :
    roundUp n (2 ^ k) = .ok ((n + 2 ^ k - 1) / 2 ^ k * 2 ^ k) := by
  have hp := Nat.two_pow_pos k
  rw [roundUp, add_ok h, Checked.ok_bind, sub_ok (by omega), Checked.ok_bind, sub_ok hp,
    Checked.ok_bind, and_complement (by omega) hk]
  rfl

theorem trailingZeros_two_pow (h : k < 64) : trailingZeros (2 ^ k) = k := by
  have hf : (List.range 64).find? (2 ^ k).testBit = some k := by
    rw [List.find?_range_eq_some]
    refine ⟨Nat.testBit_two_pow_self, List.mem_range.2 h, ?_⟩
    intro j hj
    rw [Nat.testBit_two_pow_of_ne (Nat.ne_of_gt hj)]
    rfl
  rw [trailingZeros, hf, Option.getD_some]

theorem isPowerOfTwo_two_pow (k : Nat) : IsPowerOfTwo (2 ^ k) := by
  rw [IsPowerOfTwo, Nat.log2_two_pow, Nat.one_shiftLeft]

theorem nextPowerOfTwo_eq (h : 2 ^ k < n) (hn : n ≤ 2 ^ (k + 1)) :
    nextPowerOfTwo n = 2 ^ (k + 1) := by
  have hp := Nat.two_pow_pos k
  have hl : (n - 1).log2 = k := by
    rw [Nat.log2_eq_iff (by omega)]
    omega
  rw [nextPowerOfTwo, if_neg (by omega), hl, Nat.one_shiftLeft]

theorem exists_between (h : 1 < n) : ∃ k, 2 ^ k < n ∧ n ≤ 2 ^ (k + 1) := by
  have hb := (Nat.log2_eq_iff (by omega : n - 1 ≠ 0)).1 rfl
  exact ⟨(n - 1).log2, by omega, by omega⟩

theorem nextPowerOfTwo_isLeast (n : Nat) :
    IsLeast {c | (∃ k, c = 2 ^ k) ∧ n ≤ c} (nextPowerOfTwo n) := by
  by_cases hn : n ≤ 1
  · rw [nextPowerOfTwo, if_pos hn]
    refine ⟨⟨⟨0, rfl⟩, hn⟩, ?_⟩
    rintro c ⟨⟨k, rfl⟩, -⟩
    exact Nat.two_pow_pos k
  · obtain ⟨k, hk, hk'⟩ := exists_between (Nat.lt_of_not_ge hn)
    rw [nextPowerOfTwo_eq hk hk']
    refine ⟨⟨⟨k + 1, rfl⟩, hk'⟩, ?_⟩
    rintro c ⟨⟨j, rfl⟩, hj⟩
    have hlt : k < j := (Nat.pow_lt_pow_iff_right (by decide : 1 < 2)).1 (Nat.lt_of_lt_of_le hk hj)
    exact Nat.pow_le_pow_right (by decide) hlt

/-! ### Rounding at the top of a word -/

/-- The multiples of `align` from `value` on. -/
def multiplesFrom (align value : Nat) : Set Nat := {m | align ∣ m ∧ value ≤ m}

theorem isLeast_multiplesFrom (ha : 0 < a) (n : Nat) :
    IsLeast (multiplesFrom a n) ((n + a - 1) / a * a) := by
  have hn : n + a - 1 < (n + a - 1) / a * a + a := Nat.lt_div_mul_add ha
  refine ⟨⟨Nat.dvd_mul_left _ _, by omega⟩, ?_⟩
  rintro _ ⟨⟨q, rfl⟩, hq⟩
  have hlt : n + a - 1 < a * (q + 1) := by
    rw [Nat.mul_succ]
    omega
  rw [Nat.mul_comm]
  exact Nat.mul_le_mul_left a (Nat.le_of_lt_succ (Nat.div_lt_of_lt_mul hlt))

theorem dvd_iff_eq_of_isLeast (h : IsLeast (multiplesFrom a n) m) : a ∣ n ↔ m = n := by
  constructor
  · intro hd
    exact Nat.le_antisymm (h.2 ⟨hd, Nat.le_refl n⟩) h.1.2
  · rintro rfl
    exact h.1.1

/-- Above a multiple of a power of two in a word there is room for that power. -/
theorem add_two_pow_le_bound (hk : k ≤ 64) (hd : 2 ^ k ∣ n) (h : n < bound) :
    n + 2 ^ k ≤ bound := by
  have hb : 2 ^ k ∣ bound := Nat.pow_dvd_pow 2 hk
  exact Nat.le_of_lt_add_of_dvd (Nat.add_lt_add_right h _) (Nat.dvd_add_self_right.2 hd) hb

theorem roundUp_overflow (h : bound ≤ n + a) : roundUp n a = .error .addOverflow := by
  rw [roundUp, add_overflow h]
  rfl

/-- Rounding up answers the least multiple that is large enough, if the word holds it. The one
exception is the last multiple in the word: the alignment is added to it before one is taken off,
and that sum does not fit. -/
theorem roundUp_isLeast (hk : k < 64) (value : Nat) :
    ∃ m, IsLeast (multiplesFrom (2 ^ k) value) m ∧
      roundUp value (2 ^ k) =
        (if m < bound ∧ value + 2 ^ k ≠ bound then .ok m else .error .addOverflow) ∧
      isMultiple value (2 ^ k) = .ok (decide (m = value)) := by
  have hp := Nat.two_pow_pos k
  have hl := isLeast_multiplesFrom hp value
  refine ⟨_, hl, ?_, ?_⟩
  · by_cases h : value + 2 ^ k < bound
    · have hle := Nat.div_mul_le_self (value + 2 ^ k - 1) (2 ^ k)
      rw [if_pos ⟨by omega, Nat.ne_of_lt h⟩, roundUp_two_pow (Nat.le_of_lt hk) h]
    · have hge := Nat.le_of_not_lt h
      rw [if_neg, roundUp_overflow hge]
      rintro ⟨hlt, hne⟩
      have hroom := add_two_pow_le_bound (Nat.le_of_lt hk) hl.1.1 hlt
      exact hne (Nat.le_antisymm (Nat.le_trans (Nat.add_le_add_right hl.1.2 _) hroom) hge)
  · rw [isMultiple_two_pow, decide_eq_decide.2 (dvd_iff_eq_of_isLeast hl)]

/-- The value just below the last multiple of 8 is still rounded up to it. -/
theorem roundUp_isLeast_below_top : 3 < 64 ∧
    IsLeast (multiplesFrom (2 ^ 3) (2 ^ 64 - 9)) (2 ^ 64 - 8) ∧
    roundUp (2 ^ 64 - 9) (2 ^ 3) = .ok (2 ^ 64 - 8) ∧
    isMultiple (2 ^ 64 - 9) (2 ^ 3) = .ok false := by
  have hl : IsLeast (multiplesFrom (2 ^ 3) (2 ^ 64 - 9)) (2 ^ 64 - 8) :=
    isLeast_multiplesFrom (by decide) _
  obtain ⟨m, hm, hr, hd⟩ := roundUp_isLeast (k := 3) (by decide) (2 ^ 64 - 9)
  obtain rfl := hm.unique hl
  exact ⟨by decide, hl, hr, hd⟩

/-- The last multiple of 8 in a word is no less a multiple than others, but it is not rounded up to
itself. -/
theorem roundUp_top_overflows : IsLeast (multiplesFrom 8 (2 ^ 64 - 8)) (2 ^ 64 - 8) ∧
    2 ^ 64 - 8 < bound ∧ roundUp (2 ^ 64 - 8) 8 = .error .addOverflow :=
  ⟨⟨⟨by decide, Nat.le_refl _⟩, fun _ h => h.2⟩, by decide, rfl⟩

end FixedPool.Word
