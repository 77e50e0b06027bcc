import Mathlib

/-!
# Bytes: little-endian numbers, slices and splices

* `leBytes`, `leNat` — the little-endian digits of a number and the number of a
  digit list, inverse to each other at a given width; `field` reads one;
* `slice`, `splice` — a run of bytes read from, or written into, a block of
  fixed size.
-/

namespace GenericKernel.Lib

/-- What holds of the 256 bytes. -/
theorem forall_byte {P : UInt8 → Prop} (h : ∀ n : Fin 256, P (UInt8.ofNat n)) (byte : UInt8) :
    P byte := by
  have hbyte := h ⟨byte.toNat, byte.toNat_lt⟩
  rwa [UInt8.ofNat_toNat] at hbyte

/-! ## Little-endian numbers -/

/-- The `k` lowest bytes of a number, lowest first. -/
def leBytes : Nat → Nat → List UInt8
  | 0, _ => []
  | k + 1, v => UInt8.ofNat v :: leBytes k (v / 256)

/-- The number with the given bytes, lowest first. -/
def leNat : List UInt8 → Nat
  | [] => 0
  | b :: bs => b.toNat + 256 * leNat bs

@[simp] theorem length_leBytes (k v : Nat) : (leBytes k v).length = k := by
  induction k generalizing v with
  | zero => rfl
  | succ k ih => rw [leBytes, List.length_cons, ih]

theorem leNat_leBytes (k v : Nat) : leNat (leBytes k v) = v % 256 ^ k := by
  induction k generalizing v with
  | zero => rw [leBytes, leNat, Nat.pow_zero, Nat.mod_one]
  | succ k ih =>
      have hbyte : (UInt8.ofNat v).toNat = v % 256 := UInt8.toNat_ofNat'
      rw [leBytes, leNat, ih, hbyte, Nat.pow_succ', Nat.mod_mul]

theorem leNat_lt (bs : List UInt8) : leNat bs < 256 ^ bs.length := by
  induction bs with
  | nil => exact Nat.one_pos
  | cons b bs ih =>
      rw [leNat, List.length_cons, Nat.pow_succ']
      have := b.toNat_lt
      omega

/-- The number stored in `width` bytes at `offset`. -/
def field (data : List UInt8) (offset width : Nat) : Nat := leNat ((data.drop offset).take width)

theorem field_lt (data : List UInt8) (offset width : Nat) :
    field data offset width < 256 ^ width := by
  refine lt_of_lt_of_le (leNat_lt _) (Nat.pow_le_pow_right (by omega) ?_)
  simp [List.length_take]

/-- The `u64` with the given bytes. -/
def leUInt64 (bs : List UInt8) : UInt64 := UInt64.ofNat (leNat bs)

/-- The `u32` with the given bytes. -/
def leUInt32 (bs : List UInt8) : UInt32 := UInt32.ofNat (leNat bs)

theorem leUInt64_leBytes (v : UInt64) : leUInt64 (leBytes 8 v.toNat) = v := by
  have hlt : v.toNat < 256 ^ 8 := v.toNat_lt
  unfold leUInt64
  rw [leNat_leBytes, Nat.mod_eq_of_lt hlt, UInt64.ofNat_toNat]

theorem leUInt32_leBytes (v : UInt32) : leUInt32 (leBytes 4 v.toNat) = v := by
  have hlt : v.toNat < 256 ^ 4 := v.toNat_lt
  unfold leUInt32
  rw [leNat_leBytes, Nat.mod_eq_of_lt hlt, UInt32.ofNat_toNat]

/-! ## Slices of a block -/

variable {m : Nat}

/-- The `count` bytes of a block from `start` on. -/
def slice (raw : Vector UInt8 m) (start count : Nat) : List UInt8 :=
  (raw.toList.drop start).take count

/-- The block with `bytes` written over it from `start` on. -/
def splice (raw : Vector UInt8 m) (start : Nat) (bytes : List UInt8) : Vector UInt8 m :=
  Vector.ofFn fun i => if start ≤ i then bytes[i.val - start]?.getD raw[i] else raw[i]

theorem getElem_splice (raw : Vector UInt8 m) (start : Nat) (bytes : List UInt8) {i : Nat}
    (hi : i < m) : (splice raw start bytes)[i] =
      if start ≤ i then bytes[i - start]?.getD raw[i] else raw[i] := by
  simp [splice]

theorem getElem?_slice (raw : Vector UInt8 m) (start count : Nat) {i : Nat} (hi : i < count) :
    (slice raw start count)[i]? = raw[start + i]? := by
  unfold slice
  rw [List.getElem?_take_of_lt hi, List.getElem?_drop, Vector.getElem?_toList]

theorem length_slice (raw : Vector UInt8 m) {start count : Nat} (h : start + count ≤ m) :
    (slice raw start count).length = count := by
  unfold slice
  rw [List.length_take, List.length_drop, Vector.length_toList]
  omega

/-- Two slices with the same bytes. -/
theorem slice_congr {raw raw' : Vector UInt8 m} {start count : Nat}
    (h : ∀ i, start ≤ i → i < start + count → raw[i]? = raw'[i]?) :
    slice raw start count = slice raw' start count := by
  refine List.ext_getElem? fun i => ?_
  by_cases hi : i < count
  · rw [getElem?_slice _ _ _ hi, getElem?_slice _ _ _ hi]
    exact h _ (by omega) (by omega)
  · have hnone : ∀ raw : Vector UInt8 m, (slice raw start count)[i]? = none := by
      intro raw
      refine List.getElem?_eq_none ?_
      unfold slice
      rw [List.length_take]
      omega
    rw [hnone, hnone]

/-- What was written is read back. -/
theorem slice_splice (raw : Vector UInt8 m) {start : Nat} {bytes : List UInt8}
    (h : start + bytes.length ≤ m) : slice (splice raw start bytes) start bytes.length = bytes := by
  refine List.ext_getElem? fun i => ?_
  by_cases hi : i < bytes.length
  · rw [getElem?_slice _ _ _ hi, Vector.getElem?_eq_getElem (by omega), getElem_splice,
      if_pos (by omega), Nat.add_sub_cancel_left, List.getElem?_eq_getElem hi]
    rfl
  · have hlen := length_slice (splice raw start bytes) h
    rw [List.getElem?_eq_none (by omega), List.getElem?_eq_none (by omega)]

/-- Bytes written at the start of a block stand before the rest of it. -/
theorem toList_splice_zero (raw : Vector UInt8 m) {bytes : List UInt8} (h : bytes.length ≤ m) :
    (splice raw 0 bytes).toList = bytes ++ (splice raw 0 bytes).toList.drop bytes.length := by
  have hhead := slice_splice raw (show 0 + bytes.length ≤ m by omega)
  unfold slice at hhead
  rw [List.drop_zero] at hhead
  nth_rewrite 2 [← hhead]
  exact (List.take_append_drop _ _).symm

/-- What lies elsewhere is as before. -/
theorem slice_splice_of_disjoint (raw : Vector UInt8 m) {start start' count : Nat}
    {bytes : List UInt8} (h : start' + count ≤ start ∨ start + bytes.length ≤ start') :
    slice (splice raw start bytes) start' count = slice raw start' count := by
  refine slice_congr fun i hlo hhi => ?_
  by_cases hi : i < m
  · rw [Vector.getElem?_eq_getElem hi, Vector.getElem?_eq_getElem hi, getElem_splice]
    by_cases hstart : start ≤ i
    · rw [if_pos hstart, List.getElem?_eq_none (by omega)]
      rfl
    · rw [if_neg hstart]
  · rw [Vector.getElem?_eq_none (by omega), Vector.getElem?_eq_none (by omega)]

/-! ## Growable byte arrays -/

/-- Cut or zero-extended to `n` bytes. -/
def resize (old : List UInt8) (n : Nat) : List UInt8 := old.take n ++ List.replicate (n - old.length) 0

/-- Zero-extended to hold `data` at `offset`, and overwritten there. -/
def overwrite (old : List UInt8) (offset : Nat) (data : List UInt8) : List UInt8 :=
  (resize old (max old.length (offset + data.length))).take offset ++ data ++
    old.drop (offset + data.length)

@[simp] theorem length_resize (old : List UInt8) (n : Nat) : (resize old n).length = n := by
  unfold resize
  rw [List.length_append, List.length_take, List.length_replicate]
  omega

theorem getElem?_resize (old : List UInt8) {n p : Nat} (h : p < n) :
    (resize old n)[p]? = some (old[p]?.getD 0) := by
  unfold resize
  by_cases hp : p < old.length
  · rw [List.getElem?_append_left (by rw [List.length_take]; omega), List.getElem?_take_of_lt h,
      List.getElem?_eq_getElem hp]
    rfl
  · rw [List.getElem?_append_right (by rw [List.length_take]; omega),
      List.getElem?_eq_none (Nat.not_lt.mp hp), List.getElem?_replicate_of_lt]
    · rfl
    · rw [List.length_take]
      omega

@[simp] theorem length_overwrite (old : List UInt8) (offset : Nat) (data : List UInt8) :
    (overwrite old offset data).length = max old.length (offset + data.length) := by
  unfold overwrite
  rw [List.length_append, List.length_append, List.length_take, length_resize, List.length_drop]
  omega

theorem getElem?_overwrite (old : List UInt8) {offset p : Nat} {data : List UInt8}
    (h : p < max old.length (offset + data.length)) :
    (overwrite old offset data)[p]? =
      some (if offset ≤ p ∧ p < offset + data.length then data[p - offset]?.getD 0
        else old[p]?.getD 0) := by
  unfold overwrite
  have htake : ((resize old (max old.length (offset + data.length))).take offset).length = offset := by
    rw [List.length_take, length_resize]
    omega
  by_cases hbefore : p < offset
  · rw [if_neg (by omega), List.append_assoc, List.getElem?_append_left (by omega),
      List.getElem?_take_of_lt hbefore, getElem?_resize old h]
  · by_cases hin : p < offset + data.length
    · rw [if_pos ⟨Nat.not_lt.mp hbefore, hin⟩, List.append_assoc,
        List.getElem?_append_right (by omega), htake, List.getElem?_append_left (by omega),
        List.getElem?_eq_getElem (by omega)]
      rfl
    · rw [if_neg (by omega), List.getElem?_append_right (by rw [List.length_append]; omega),
        List.length_append, htake, List.getElem?_drop,
        show offset + data.length + (p - (offset + data.length)) = p by omega,
        List.getElem?_eq_getElem (by omega)]
      rfl

end GenericKernel.Lib
