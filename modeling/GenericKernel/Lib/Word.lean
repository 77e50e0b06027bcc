import Mathlib

/-!
# 64-bit word arithmetic on naturals

Machine words are natural numbers below `2 ^ 64`. Checked operations return
`none` on overflow; clearing the low bits of a word with the complement of
`alignment - 1` rounds it down to a multiple of a power of two.
-/

namespace GenericKernel.Lib

/-- Number of values of a 64-bit word. Irreducible, so that comparisons with
it are never unfolded bit by bit. -/
@[irreducible] def wordSize : Nat := 2 ^ 64

theorem lt_wordSize {n : Nat} (h : n < 2 ^ 64) : n < wordSize := by
  rw [wordSize]
  exact h

theorem wordSize_pos : 0 < wordSize := lt_wordSize (by decide)

/-- Addition that fails on overflow. -/
def checkedAdd (a b : Nat) : Option Nat :=
  if a + b < wordSize then some (a + b) else none

/-- Multiplication that fails on overflow. -/
def checkedMul (a b : Nat) : Option Nat :=
  if a * b < wordSize then some (a * b) else none

/-- `u64` addition of a release build. -/
def wrappingAdd (a b : Nat) : Nat := (a + b) % wordSize

/-- Addition that stops at the largest word. -/
def saturatingAdd (a b : Nat) : Nat := min (a + b) (wordSize - 1)

def saturatingMul (a b : Nat) : Nat := min (a * b) (wordSize - 1)

variable {a b k value alignment i : Nat} {m c : UInt64}

theorem wrappingAdd_of_lt (h : a + b < wordSize) : wrappingAdd a b = a + b :=
  Nat.mod_eq_of_lt h

theorem checkedAdd_eq_some {c : Nat} : checkedAdd a b = some c ↔ c = a + b ∧ a + b < wordSize := by
  unfold checkedAdd
  split <;> simp_all [eq_comm]

theorem checkedAdd_eq_none : checkedAdd a b = none ↔ wordSize ≤ a + b := by
  unfold checkedAdd
  split <;> simp_all

theorem checkedMul_eq_some {c : Nat} : checkedMul a b = some c ↔ c = a * b ∧ a * b < wordSize := by
  unfold checkedMul
  split <;> simp_all [eq_comm]

theorem checkedMul_eq_none : checkedMul a b = none ↔ wordSize ≤ a * b := by
  unfold checkedMul
  split <;> simp_all

/-- Exactly one bit is set. -/
def isPowerOfTwo (n : Nat) : Bool := n == 2 ^ Nat.log2 n

theorem isPowerOfTwo_iff {n : Nat} : isPowerOfTwo n = true ↔ ∃ k, n = 2 ^ k := by
  unfold isPowerOfTwo
  rw [beq_iff_eq]
  constructor
  · intro h
    exact ⟨_, h⟩
  · rintro ⟨k, rfl⟩
    rw [Nat.log2_two_pow]

/-- `value & !(alignment - 1)` on words. -/
def maskDown (value alignment : Nat) : Nat := value &&& (wordSize - alignment)

/-- Clearing the low bits of a word rounds it down to a multiple. -/
theorem maskDown_eq (value : Nat) (hk : k ≤ 64) :
    maskDown value (2 ^ k) = value % wordSize / 2 ^ k * 2 ^ k := by
  have hword : wordSize = 2 ^ k * 2 ^ (64 - k) := by
    rw [wordSize, ← Nat.pow_add, Nat.add_sub_cancel' hk]
  have hmask : wordSize - 2 ^ k = (2 ^ (64 - k) - 1) <<< k := by
    rw [hword, Nat.shiftLeft_eq, Nat.sub_mul, Nat.one_mul, Nat.mul_comm]
  have hbit : value &&& ((2 ^ (64 - k) - 1) <<< k) =
      ((value >>> k) &&& (2 ^ (64 - k) - 1)) <<< k := by
    apply Nat.eq_of_testBit_eq
    intro i
    simp only [Nat.testBit_and, Nat.testBit_shiftLeft, Nat.testBit_shiftRight]
    by_cases h : k ≤ i
    · simp [h]
    · simp [h]
  rw [maskDown, hmask, hbit, Nat.and_two_pow_sub_one_eq_mod, Nat.shiftRight_eq_div_pow,
    Nat.shiftLeft_eq, hword, Nat.mod_mul_right_div_self]

/-- Round up to a multiple of a power of two, failing on overflow. -/
def alignUp (value alignment : Nat) : Option Nat :=
  (checkedAdd value (alignment - 1)).map fun rounded => maskDown rounded alignment

/-- Round down to a multiple of a power of two. -/
def alignDown (value alignment : Nat) : Nat := maskDown value alignment

theorem alignDown_eq (hk : k ≤ 64) (h : value < wordSize) :
    alignDown value (2 ^ k) = value / 2 ^ k * 2 ^ k := by
  rw [alignDown, maskDown_eq value hk, Nat.mod_eq_of_lt h]

theorem alignUp_eq (hk : k ≤ 64) (h : value + (2 ^ k - 1) < wordSize) :
    alignUp value (2 ^ k) = some ((value + (2 ^ k - 1)) / 2 ^ k * 2 ^ k) := by
  rw [alignUp, checkedAdd_eq_some.mpr ⟨rfl, h⟩, Option.map_some, maskDown_eq _ hk,
    Nat.mod_eq_of_lt h]

/-- A power of two that is a word value has an exponent of at most 64. -/
theorem exponent_le (h : 2 ^ k ≤ wordSize) : k ≤ 64 := by
  by_contra hk
  have : 2 ^ 64 < 2 ^ k := Nat.pow_lt_pow_right (by omega) (by omega)
  rw [wordSize] at h
  omega

/-- The rounded value is the least multiple that is not below `value`. -/
theorem alignUp_spec {start : Nat} (ha : isPowerOfTwo alignment = true) (hle : alignment ≤ wordSize)
    (h : alignUp value alignment = some start) :
    value ≤ start ∧ start < value + alignment ∧ alignment ∣ start ∧ start < wordSize := by
  obtain ⟨k, rfl⟩ := isPowerOfTwo_iff.mp ha
  simp only [alignUp, Option.map_eq_some_iff] at h
  obtain ⟨rounded, hr, rfl⟩ := h
  obtain ⟨rfl, hlt⟩ := checkedAdd_eq_some.mp hr
  rw [maskDown_eq _ (exponent_le hle), Nat.mod_eq_of_lt hlt]
  have hpos := Nat.two_pow_pos k
  have hdiv := Nat.div_add_mod (value + (2 ^ k - 1)) (2 ^ k)
  have hmod := Nat.mod_lt (value + (2 ^ k - 1)) hpos
  rw [Nat.mul_comm] at hdiv
  refine ⟨by omega, by omega, Nat.dvd_mul_left _ _, by omega⟩

theorem alignUp_eq_none : alignUp value alignment = none ↔ wordSize ≤ value + (alignment - 1) := by
  rw [alignUp, Option.map_eq_none_iff, checkedAdd_eq_none]

/-- Every multiple at or above `value` is at or above the rounded value. -/
theorem alignUp_le {start x : Nat} (ha : isPowerOfTwo alignment = true) (hle : alignment ≤ wordSize)
    (h : alignUp value alignment = some start) (hx : value ≤ x) (hdvd : alignment ∣ x) :
    start ≤ x := by
  obtain ⟨_, hlt, hs, _⟩ := alignUp_spec ha hle h
  by_contra hgt
  have hdiff : alignment ∣ start - x := Nat.dvd_sub hs hdvd
  have := Nat.le_of_dvd (by omega) hdiff
  omega

/-- Rounding an aligned value up changes nothing. -/
theorem alignUp_of_dvd (ha : isPowerOfTwo alignment = true) (hle : alignment ≤ wordSize)
    (hdvd : alignment ∣ value) (hlt : value + (alignment - 1) < wordSize) :
    alignUp value alignment = some value := by
  cases h : alignUp value alignment with
  | none =>
      rw [alignUp_eq_none] at h
      omega
  | some start =>
      have hge := (alignUp_spec ha hle h).1
      have := alignUp_le ha hle h (le_refl _) hdvd
      congr 1
      omega

theorem alignDown_spec (ha : isPowerOfTwo alignment = true) (hle : alignment ≤ wordSize)
    (value : Nat) :
    alignDown value alignment ≤ value ∧ alignment ∣ alignDown value alignment ∧
      alignDown value alignment < wordSize := by
  obtain ⟨k, rfl⟩ := isPowerOfTwo_iff.mp ha
  rw [alignDown, maskDown_eq _ (exponent_le hle)]
  have hmod := Nat.mod_lt value wordSize_pos
  have hmodle := Nat.mod_le value wordSize
  have hdiv := Nat.div_mul_le_self (value % wordSize) (2 ^ k)
  exact ⟨by omega, Nat.dvd_mul_left _ _, by omega⟩

/-! ## Bit fields of a 64-bit word -/

/-- A flag test is a bit test. -/
theorem flag_eq_testBit (flags : Nat) {mask : Nat} (h : mask = 2 ^ i) :
    decide (flags &&& mask ≠ 0) = flags.testBit i := by
  rw [h, Nat.and_two_pow]
  cases flags.testBit i with
  | false => simp
  | true => simp

/-- A word is its field and the rest. -/
theorem rest_or_field (x m : UInt64) : (x &&& ~~~m) ||| (x &&& m) = x := by
  apply UInt64.eq_of_toBitVec_eq
  simp only [UInt64.toBitVec_and, UInt64.toBitVec_or, UInt64.toBitVec_not]
  ext i hi
  simp only [BitVec.getElem_and, BitVec.getElem_or, BitVec.getElem_not]
  cases m.toBitVec[i] <;> simp

theorem or_and_mask (x m : UInt64) : (x ||| m) &&& m = m := by
  apply UInt64.eq_of_toBitVec_eq
  simp only [UInt64.toBitVec_and, UInt64.toBitVec_or]
  ext i hi
  simp only [BitVec.getElem_and, BitVec.getElem_or]
  cases m.toBitVec[i] <;> simp

/-- A field of one bit is set or clear. -/
theorem bit_cases (x : UInt64) (h : m.toNat = 2 ^ i) : x &&& m = 0 ∨ x &&& m = m := by
  have hand := Nat.and_two_pow x.toNat i
  rw [← h, ← UInt64.toNat_and] at hand
  cases hbit : x.toNat.testBit i with
  | false =>
    left
    apply UInt64.toNat_inj.mp
    simpa [hbit] using hand
  | true =>
    right
    apply UInt64.toNat_inj.mp
    simpa [hbit] using hand

/-- Bit `i` of a field that has no bits outside the mask `m`. -/
theorem field_bit (hc : c &&& ~~~m = 0) (hi : i < 64) (hci : c.toBitVec[i] = true) :
    m.toBitVec[i] = true := by
  have hbits := congrArg UInt64.toBitVec hc
  simp only [UInt64.toBitVec_and, UInt64.toBitVec_not] at hbits
  have hbit := congrArg (fun b => b.getLsbD i) hbits
  by_contra hmi
  simp [hi, hci, hmi] at hbit

/-- A field written under a mask is read back. -/
theorem writeField_and_mask {x : UInt64} (hc : c &&& ~~~m = 0) :
    ((x &&& ~~~m) ||| c) &&& m = c := by
  apply UInt64.eq_of_toBitVec_eq
  simp only [UInt64.toBitVec_and, UInt64.toBitVec_or, UInt64.toBitVec_not]
  ext i hi
  have hbit := field_bit hc hi
  simp only [BitVec.getElem_and, BitVec.getElem_or, BitVec.getElem_not]
  cases hm : m.toBitVec[i] <;> simp_all

/-- Writing a field leaves the bits outside the mask alone. -/
theorem writeField_and_not_mask {x : UInt64} (hc : c &&& ~~~m = 0) :
    ((x &&& ~~~m) ||| c) &&& ~~~m = x &&& ~~~m := by
  apply UInt64.eq_of_toBitVec_eq
  simp only [UInt64.toBitVec_and, UInt64.toBitVec_or, UInt64.toBitVec_not]
  ext i hi
  have hbit := field_bit hc hi
  simp only [BitVec.getElem_and, BitVec.getElem_or, BitVec.getElem_not]
  cases hm : m.toBitVec[i] <;> simp_all

end GenericKernel.Lib
