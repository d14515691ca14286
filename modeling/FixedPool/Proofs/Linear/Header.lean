import FixedPool.Linear.Header
import Mathlib.Data.Nat.Bitwise

/-!
Reading a header gives back what was written, and every header that reads has an offset below
`2 ^ 31`, which leaves the top bit to the flag.
-/

namespace FixedPool.Header

theorem toNat_and_not_freedBit (w : UInt32) : (w &&& ~~~freedBit).toNat = w.toNat % 2 ^ 31 := by
  have hm : (~~~freedBit).toNat = 2 ^ 31 - 1 := by decide
  rw [UInt32.toNat_and, hm, Nat.and_two_pow_sub_one_eq_mod]

theorem and_freedBit_ne_zero (w : UInt32) :
    (w &&& freedBit != 0) = decide (2 ^ 31 ≤ w.toNat) := by
  have hb : freedBit.toNat = 2 ^ 31 := by decide
  have hw := w.toNat_lt
  have ha : (w &&& freedBit).toNat = w.toNat / 2 ^ 31 * 2 ^ 31 := by
    have hd : w.toNat / 2 ^ 31 < 2 := by omega
    rw [UInt32.toNat_and, hb, Nat.and_two_pow, Nat.testBit_eq_decide_div_mod_eq,
      Nat.mod_eq_of_lt hd]
    obtain he | he : w.toNat / 2 ^ 31 = 0 ∨ w.toNat / 2 ^ 31 = 1 := by omega
    · rw [he]
      rfl
    · rw [he]
      rfl
  have hz : (w &&& freedBit = 0) ↔ ¬ 2 ^ 31 ≤ w.toNat := by
    rw [← UInt32.toNat_inj, ha, UInt32.toNat_zero]
    omega
  rw [Bool.eq_iff_iff, bne_iff_ne, decide_eq_true_iff, ne_eq, hz, Decidable.not_not]

theorem toNat_tagged {w : UInt32} (h : w.toNat < 2 ^ 31) (freed : Bool) :
    (w ||| (if freed then freedBit else 0)).toNat = w.toNat + if freed then 2 ^ 31 else 0 := by
  cases freed with
  | false => simp
  | true =>
    have hb : freedBit.toNat = 2 ^ 31 := by decide
    have ho := Nat.two_pow_add_eq_or_of_lt h 1
    rw [Nat.mul_one] at ho
    rw [if_pos rfl, if_pos rfl, UInt32.toNat_or, hb, Nat.or_comm, ← ho, Nat.add_comm]

theorem decode_encode {h : Header} (hb : h.below.toNat < 2 ^ 31) :
    decode h.encode.1 h.encode.2 = some h := by
  have ht := toNat_tagged hb h.freed
  have hbelow : h.encode.1 &&& ~~~freedBit = h.below := by
    apply UInt32.toNat.inj
    rw [toNat_and_not_freedBit, encode, ht]
    split <;> omega
  have hfreed : (h.encode.1 &&& freedBit != 0) = h.freed := by
    rw [and_freedBit_ne_zero, encode, ht]
    cases h.freed with
    | false => simpa using hb
    | true => simp
  rw [decode, hbelow, hfreed]
  exact if_pos rfl

variable {tagged check : UInt32} {h : Header}

theorem decode_eq_some : decode tagged check = some h ↔
    (tagged &&& ~~~freedBit) ^^^ magic = check ∧
      ⟨tagged &&& ~~~freedBit, tagged &&& freedBit != 0⟩ = h := by
  simp only [decode, Option.ite_none_right_eq_some, Option.some.injEq]

theorem below_lt_of_decode (hd : decode tagged check = some h) : h.below.toNat < 2 ^ 31 := by
  obtain ⟨-, rfl⟩ := decode_eq_some.1 hd
  rw [toNat_and_not_freedBit]
  exact Nat.mod_lt _ (Nat.two_pow_pos 31)

/-- The second word does not tell whether a header is flagged. -/
theorem check_of_decode (hd : decode tagged check = some h) (freed : Bool) :
    ({ h with freed } : Header).encode.2 = check := by
  obtain ⟨hc, rfl⟩ := decode_eq_some.1 hd
  exact hc

/-- Writing a header that was read gives back its words. -/
theorem encode_of_decode (hd : decode tagged check = some h) : h.encode = (tagged, check) := by
  obtain ⟨hc, rfl⟩ := decode_eq_some.1 hd
  have hb := toNat_and_not_freedBit tagged
  have hlt : (tagged &&& ~~~freedBit).toNat < 2 ^ 31 := hb ▸ Nat.mod_lt _ (Nat.two_pow_pos 31)
  have ht := toNat_tagged hlt (tagged &&& freedBit != 0)
  have hw := tagged.toNat_lt
  refine Prod.ext (UInt32.toNat.inj ?_) hc
  simp only [hb, and_freedBit_ne_zero, decide_eq_true_eq] at ht
  simp only [encode, and_freedBit_ne_zero, decide_eq_true_eq]
  rw [ht]
  split <;> omega

/-! ### Damaged headers -/

/-- Of all second words only one fits the first word. -/
theorem decode_of_check_ne {other : UInt32} (hd : decode tagged check = some h)
    (hne : other ≠ check) : decode tagged other = none := by
  obtain ⟨hc, -⟩ := decode_eq_some.1 hd
  exact if_neg fun ho => hne (ho.symm.trans hc)

theorem xor_and_not_freedBit {mask : UInt32} (hm : mask.toNat < 2 ^ 31) :
    (tagged ^^^ mask) &&& ~~~freedBit = (tagged &&& ~~~freedBit) ^^^ mask := by
  have hmask : mask &&& ~~~freedBit = mask := by
    apply UInt32.toNat.inj
    rw [toNat_and_not_freedBit, Nat.mod_eq_of_lt hm]
  have hdistrib : (tagged ^^^ mask) &&& ~~~freedBit =
      (tagged &&& ~~~freedBit) ^^^ (mask &&& ~~~freedBit) := by
    apply UInt32.toNat.inj
    simp only [UInt32.toNat_and, UInt32.toNat_xor, Nat.and_xor_distrib_right]
  rw [hdistrib, hmask]

/-- A change to the offset in the first word does not fit the second word any more. -/
theorem decode_of_flip {mask : UInt32} (hd : decode tagged check = some h) (hz : mask ≠ 0)
    (hm : mask.toNat < 2 ^ 31) : decode (tagged ^^^ mask) check = none := by
  obtain ⟨hc, -⟩ := decode_eq_some.1 hd
  refine if_neg fun ho => hz ?_
  rw [xor_and_not_freedBit hm, ← hc, UInt32.xor_left_inj] at ho
  have ho : (tagged &&& ~~~freedBit) ^^^ mask = (tagged &&& ~~~freedBit) ^^^ 0 := by
    rw [ho, UInt32.xor_zero]
  exact (UInt32.xor_right_inj _).1 ho

end FixedPool.Header
