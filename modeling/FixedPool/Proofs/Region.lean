import FixedPool.Region
import FixedPool.Proofs.Steps

/-!
What reading gives after writing: each write changes the bytes of one range, to the bytes that were
written, and no others.
-/

namespace FixedPool.Region

variable {r r' : Region} {o i n source target : Nat}

theorem byte_eq (r : Region) (o : Nat) : r.byte o = r.bytes.data[o]?.getD 0 := by
  unfold byte
  split
  case isTrue h =>
    rw [Array.getElem?_eq_getElem h]
    rfl
  case isFalse h =>
    rw [Array.getElem?_eq_none (Nat.le_of_not_gt h)]
    rfl

/-! ### Single bytes -/

@[simp] theorem size_setByte (r : Region) (o : Nat) (v : UInt8) : (r.setByte o v).size = r.size := by
  unfold setByte
  split
  · exact Array.size_set _
  · rfl

theorem byte_setByte (h : o < r.size) (v : UInt8) (i : Nat) :
    (r.setByte o v).byte i = if i = o then v else r.byte i := by
  have hd : o < r.bytes.data.size := h
  have hs : (r.setByte o v).bytes.data = r.bytes.data.set o v hd :=
    congrArg (fun s : Region => s.bytes.data) (dif_pos h)
  rw [byte_eq, byte_eq, hs, Array.getElem?_set]
  grind

theorem byte_setByte_ne (r : Region) (v : UInt8) (h : i ≠ o) :
    (r.setByte o v).byte i = r.byte i := by
  by_cases ho : o < r.size
  · rw [byte_setByte ho, if_neg h]
  · have hs : r.setByte o v = r := dif_neg ho
    rw [hs]

/-! ### Words -/

@[simp] theorem size_setWord (r : Region) (o : Nat) (v : UInt32) : (r.setWord o v).size = r.size := by
  simp only [setWord, size_setByte]

theorem byte_setWord_ne (r : Region) (v : UInt32) (h : i < o ∨ o + 4 ≤ i) :
    (r.setWord o v).byte i = r.byte i := by
  simp only [setWord]
  rw [byte_setByte_ne _ _ (by omega), byte_setByte_ne _ _ (by omega),
    byte_setByte_ne _ _ (by omega), byte_setByte_ne _ _ (by omega)]

theorem word_congr (h : ∀ i, o ≤ i → i < o + 4 → r.byte i = r'.byte i) :
    r.word o = r'.word o := by
  simp only [word, h o (by omega) (by omega), h (o + 1) (by omega) (by omega),
    h (o + 2) (by omega) (by omega), h (o + 3) (by omega) (by omega)]

theorem word_setWord (h : o + 4 ≤ r.size) (v : UInt32) : (r.setWord o v).word o = v := by
  have h₀ : (r.setWord o v).byte o = .ofNat v.toNat := by
    simp only [setWord]
    rw [byte_setByte_ne _ _ (by omega), byte_setByte_ne _ _ (by omega),
      byte_setByte_ne _ _ (by omega), byte_setByte (by omega), if_pos rfl]
  have h₁ : (r.setWord o v).byte (o + 1) = .ofNat (v.toNat / 256) := by
    simp only [setWord]
    rw [byte_setByte_ne _ _ (by omega), byte_setByte_ne _ _ (by omega),
      byte_setByte (by simp only [size_setByte]; omega), if_pos rfl]
  have h₂ : (r.setWord o v).byte (o + 2) = .ofNat (v.toNat / 256 / 256) := by
    simp only [setWord]
    rw [byte_setByte_ne _ _ (by omega), byte_setByte (by simp only [size_setByte]; omega),
      if_pos rfl]
  have h₃ : (r.setWord o v).byte (o + 3) = .ofNat (v.toNat / 256 / 256 / 256) := by
    simp only [setWord]
    rw [byte_setByte (by simp only [size_setByte]; omega), if_pos rfl]
  have hv := v.toNat_lt
  apply UInt32.toNat.inj
  simp only [word, h₀, h₁, h₂, h₃, UInt8.toNat_ofNat', UInt32.toNat_ofNat']
  omega

/-- A word tells its four bytes. -/
theorem byte_congr (h : r.word o = r'.word o) (hi : o ≤ i) (hi' : i < o + 4) :
    r.byte i = r'.byte i := by
  have hw := congrArg UInt32.toNat h
  have hb : ∀ (s : Region) (k : Nat), (s.byte k).toNat < 256 := fun s k => (s.byte k).toNat_lt
  have h₀ := hb r o
  have h₁ := hb r (o + 1)
  have h₂ := hb r (o + 2)
  have h₃ := hb r (o + 3)
  have h₀' := hb r' o
  have h₁' := hb r' (o + 1)
  have h₂' := hb r' (o + 2)
  have h₃' := hb r' (o + 3)
  rw [word, word, UInt32.toNat_ofNat_of_lt' (by change _ < 2 ^ 32; omega),
    UInt32.toNat_ofNat_of_lt' (by change _ < 2 ^ 32; omega)] at hw
  apply UInt8.toNat.inj
  obtain rfl | rfl | rfl | rfl : i = o ∨ i = o + 1 ∨ i = o + 2 ∨ i = o + 3 := by omega
  all_goals omega

theorem word_setWord_ne (r : Region) (v : UInt32) (h : i + 4 ≤ o ∨ o + 4 ≤ i) :
    (r.setWord o v).word i = r.word i := by
  apply word_congr
  intro k hk hk'
  exact byte_setWord_ne _ _ (by omega)

/-! ### Ranges -/

theorem data_overwrite {source : ByteArray} (h : o + source.size ≤ r.size) :
    (r.overwrite o source).bytes.data =
      r.bytes.data.extract 0 o ++ source.data ++ r.bytes.data.extract (o + source.size) := by
  have hs : (r.overwrite o source).bytes = source.copySlice 0 r.bytes o source.size :=
    congrArg Region.bytes (if_pos h)
  rw [hs]
  simp only [ByteArray.copySlice, Nat.zero_add, ByteArray.size_data, Nat.sub_zero, Nat.min_self]
  rw [← ByteArray.size_data, Array.extract_size]

@[simp] theorem size_overwrite (r : Region) (o : Nat) (source : ByteArray) :
    (r.overwrite o source).size = r.size := by
  have hr : r.size = r.bytes.data.size := rfl
  have hs : source.size = source.data.size := rfl
  by_cases h : o + source.size ≤ r.size
  · change (r.overwrite o source).bytes.data.size = _
    rw [data_overwrite h]
    simp only [Array.size_append, Array.size_extract]
    omega
  · have he : r.overwrite o source = r := if_neg h
    rw [he]

theorem byte_overwrite {source : ByteArray} (h : o + source.size ≤ r.size) (i : Nat) :
    (r.overwrite o source).byte i =
      if o ≤ i ∧ i < o + source.size then source.data[i - o]?.getD 0 else r.byte i := by
  have hr : r.size = r.bytes.data.size := rfl
  have hs : source.size = source.data.size := rfl
  rw [byte_eq, byte_eq, data_overwrite h, Array.getElem?_append, Array.getElem?_append,
    Array.getElem?_extract, Array.getElem?_extract]
  simp only [Array.size_append, Array.size_extract]
  grind

theorem size_zeros (n : Nat) : (zeros n).size = n := Array.size_replicate

@[simp] theorem size_clear (r : Region) (o n : Nat) : (r.clear o n).size = r.size :=
  size_overwrite ..

theorem byte_clear (h : o + n ≤ r.size) (i : Nat) :
    (r.clear o n).byte i = if o ≤ i ∧ i < o + n then 0 else r.byte i := by
  have hz := size_zeros n
  rw [clear, byte_overwrite (by omega), hz, zeros, Array.getElem?_replicate]
  grind

theorem size_slice (h : source + n ≤ r.size) : (r.slice source n).size = n := by
  have hr : r.size = r.bytes.size := rfl
  simp only [slice, ByteArray.size_extract]
  omega

@[simp] theorem size_move (r : Region) (source n target : Nat) :
    (r.move source n target).size = r.size :=
  size_overwrite ..

theorem byte_move (hs : source + n ≤ r.size) (ht : target + n ≤ r.size) (i : Nat) :
    (r.move source n target).byte i =
      if target ≤ i ∧ i < target + n then r.byte (source + (i - target)) else r.byte i := by
  have hr : r.size = r.bytes.data.size := rfl
  have hn := size_slice hs
  rw [move, byte_overwrite (by omega), hn, slice, ByteArray.data_extract, byte_eq, byte_eq,
    Array.getElem?_extract]
  grind

/-- The bytes from `target` on are those that stood from `source` on. -/
def Carries (r : Region) (source length target : Nat) (r' : Region) : Prop :=
  ∀ i < length, r'.byte (target + i) = r.byte (source + i)

theorem carries_move (hs : source + n ≤ r.size) (ht : target + n ≤ r.size) :
    r.Carries source n target (r.move source n target) := by
  intro i hi
  rw [byte_move hs ht, if_pos (by omega), Nat.add_sub_cancel_left]

theorem Carries.congr {u v : Region} (h : r.Carries source n target r')
    (hu : ∀ i < n, u.byte (source + i) = r.byte (source + i))
    (hv : ∀ i < n, v.byte (target + i) = r'.byte (target + i)) : u.Carries source n target v := by
  intro i hi
  rw [hv i hi, h i hi, hu i hi]

/-! ### Checks -/

theorem checkRange_ok {start stop : Nat} (h : start ≤ stop) (hs : stop ≤ r.size) :
    r.checkRange start stop = .ok () := by
  rw [checkRange, if_neg (by omega), if_neg (by omega)]

theorem checkWord_ok (hr : r.size < Word.bound) (h : o + 4 ≤ r.size) : r.checkWord o = .ok () := by
  have ha : Word.add o 4 = .ok (o + 4) := if_pos (by omega)
  rw [checkWord, ha, Checked.ok_bind, checkRange_ok (by omega) h]

theorem loadWord_ok (hr : r.size < Word.bound) (h : o + 4 ≤ r.size) :
    r.loadWord o = .ok (r.word o) := by
  rw [loadWord, checkWord_ok hr h]
  rfl

theorem storeWord_ok (hr : r.size < Word.bound) (h : o + 4 ≤ r.size) (v : UInt32) :
    r.storeWord o v = .ok (r.setWord o v) := by
  rw [storeWord, checkWord_ok hr h]
  rfl

theorem checkMove_ok (hr : r.size < Word.bound) (hs : source + n ≤ r.size)
    (ht : target + n ≤ r.size) : r.checkMove source n target = .ok () := by
  have ha : Word.add source n = .ok (source + n) := if_pos (by omega)
  rw [checkMove, ha, Checked.ok_bind, checkRange_ok (by omega) hs, Checked.ok_bind, if_pos ht]

theorem addressAt_ok (h : o < r.size) : r.addressAt o = .ok o := if_pos h

theorem resolve_ok (h : o < r.size) : r.resolve o = .ok o := if_pos (decide_eq_true h)

theorem resolve_error (h : r.size ≤ o) : r.resolve o = .error .foreignAddress :=
  if_neg (by rw [contains, decide_eq_true_eq]; exact Nat.not_lt_of_ge h)

theorem stop_le_of_checkRange {start stop : Nat} (h : r.checkRange start stop = .ok ()) :
    stop ≤ r.size := by
  unfold checkRange at h
  split at h
  · cases h
  · split at h
    · cases h
    · omega

theorem end_le_of_checkWord (h : r.checkWord o = .ok ()) : o + 4 ≤ r.size := by
  unfold checkWord Word.add at h
  split at h
  · exact stop_le_of_checkRange h
  · cases h

/-- Only words that lie in the region are read. -/
theorem end_le_of_loadWord {word : UInt32} (h : r.loadWord o = .ok word) : o + 4 ≤ r.size := by
  cases hc : r.checkWord o with
  | ok => exact end_le_of_checkWord hc
  | error cause =>
    rw [loadWord, hc] at h
    cases h

theorem size_of_storeWord {v : UInt32} (h : r.storeWord o v = .ok r') : r'.size = r.size := by
  cases hc : r.checkWord o with
  | ok =>
    rw [storeWord, hc] at h
    cases h
    exact size_setWord r o v
  | error cause =>
    rw [storeWord, hc] at h
    cases h

/-! ### New regions -/

/-- A region that is not empty fails to be mapped only if the host refuses it. -/
theorem map_cases (host : Host) (hn : n ≠ 0) :
    map host n = .ok ⟨zeros n⟩ ∨ host.grants n = false ∧ map host n = .error (.unmapped n) := by
  rw [map, if_neg hn]
  cases hg : host.grants n with
  | true => exact .inl (if_pos rfl)
  | false => exact .inr ⟨rfl, if_neg (by decide)⟩

end FixedPool.Region
