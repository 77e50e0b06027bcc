import GenericKernel.Lib.Bytes

/-!
# Blocks as one flat byte array

An extent of blocks of `m` bytes, from block `start` on, is one byte array:
byte `p` is byte `p % m` of block `start + p / m`.

* `flatByte`, `flatBytes` — reading the array;
* `patch` — writing a run of bytes into it; patches compose (`patch_append`), and
  one within a single block is a splice of that block (`patch_one`);
* `fillBlocks`, `copyBlocks` — whole blocks set to a value, or copied to where
  they do not run over blocks still to be copied;
* `DiffersIn` — what such a change can touch.
-/

namespace GenericKernel.Lib

variable {m : Nat}

/-- Byte `p` of the extent at `start`. -/
def flatByte (d : Nat → Vector UInt8 m) (start p : Nat) : UInt8 :=
  (d (start + p / m))[p % m]?.getD 0

/-- `total` bytes of the extent from `position` on. -/
def flatBytes (d : Nat → Vector UInt8 m) (start position total : Nat) : List UInt8 :=
  (List.range total).map fun k => flatByte d start (position + k)

/-- The blocks with `bytes` written at `position` of the extent. -/
def patch (d : Nat → Vector UInt8 m) (start position : Nat) (bytes : List UInt8) :
    Nat → Vector UInt8 m := fun s =>
  if s < start then d s
  else Vector.ofFn fun i =>
    if position ≤ (s - start) * m + i then
      bytes[(s - start) * m + i - position]?.getD (getElem (d s) i i.isLt)
    else getElem (d s) i i.isLt

section Patch

variable (d : Nat → Vector UInt8 m) {start position : Nat} {bytes : List UInt8}

theorem patch_before {s : Nat} (h : s < start) : patch d start position bytes s = d s :=
  if_pos h

theorem getElem_patch {s i : Nat} (h : start ≤ s) (hi : i < m) :
    (patch d start position bytes s)[i] =
      if position ≤ (s - start) * m + i then
        bytes[(s - start) * m + i - position]?.getD (d s)[i]
      else (d s)[i] := by
  unfold patch
  simp [Nat.not_lt.mpr h]

/-- A block that the bytes do not reach is unchanged. -/
theorem patch_outside {s : Nat} (h : (s - start) * m + m ≤ position ∨
    position + bytes.length ≤ (s - start) * m) : patch d start position bytes s = d s := by
  by_cases hs : s < start
  · exact patch_before d hs
  · refine Vector.ext fun i hi => ?_
    rw [getElem_patch d (Nat.not_lt.mp hs) hi]
    by_cases hp : position ≤ (s - start) * m + i
    · rw [if_pos hp, List.getElem?_eq_none (by omega)]
      rfl
    · rw [if_neg hp]

theorem patch_nil : patch d start position [] = d := by
  funext s
  by_cases hs : s < start
  · exact patch_before d hs
  · refine Vector.ext fun i hi => ?_
    rw [getElem_patch d (Nat.not_lt.mp hs) hi]
    by_cases hp : position ≤ (s - start) * m + i
    · rw [if_pos hp]
      rfl
    · rw [if_neg hp]

/-- Writing one run after another. -/
theorem patch_append (bytes' : List UInt8) :
    patch (patch d start position bytes) start (position + bytes.length) bytes' =
      patch d start position (bytes ++ bytes') := by
  funext s
  by_cases hs : s < start
  · rw [patch_before _ hs, patch_before _ hs, patch_before _ hs]
  · have hs' := Nat.not_lt.mp hs
    refine Vector.ext fun i hi => ?_
    rw [getElem_patch _ hs' hi, getElem_patch _ hs' hi, getElem_patch _ hs' hi]
    generalize (s - start) * m + i = p
    by_cases hp : position ≤ p
    · rw [if_pos hp, if_pos hp]
      by_cases hp' : position + bytes.length ≤ p
      · rw [if_pos hp', List.getElem?_append_right (by omega),
          List.getElem?_eq_none (show bytes.length ≤ p - position by omega), Nat.sub_add_eq]
        rfl
      · rw [if_neg hp', List.getElem?_append_left (by omega)]
    · rw [if_neg hp, if_neg hp, if_neg (by omega)]

/-- A run inside one block splices that block. -/
theorem patch_one (hfit : position % m + bytes.length ≤ m) :
    patch d start position bytes = Function.update d (start + position / m)
      (splice (d (start + position / m)) (position % m) bytes) := by
  have hdiv := Nat.div_add_mod position m
  rw [Nat.mul_comm] at hdiv
  funext s
  by_cases hs : s = start + position / m
  · subst hs
    rw [Function.update_self]
    refine Vector.ext fun i hi => ?_
    rw [getElem_patch d (Nat.le_add_right _ _) hi, getElem_splice, Nat.add_sub_cancel_left]
    by_cases hp : position % m ≤ i
    · rw [if_pos hp, if_pos (by omega)]
      congr 2
      omega
    · rw [if_neg hp, if_neg (by omega)]
  · rw [Function.update_of_ne hs]
    by_cases hbefore : s < start
    · exact patch_before d hbefore
    · refine patch_outside d ?_
      rcases Nat.lt_or_gt_of_ne hs with hlt | hgt
      · left
        have : (s - start + 1) * m ≤ position / m * m :=
          Nat.mul_le_mul_right m (by omega)
        rw [Nat.succ_mul] at this
        omega
      · right
        have : (position / m + 1) * m ≤ (s - start) * m :=
          Nat.mul_le_mul_right m (by omega)
        rw [Nat.succ_mul] at this
        omega

/-- Reading a patched extent. -/
theorem flatByte_patch (hm : 0 < m) (p : Nat) :
    flatByte (patch d start position bytes) start p =
      if position ≤ p then bytes[p - position]?.getD (flatByte d start p)
      else flatByte d start p := by
  have hmod := Nat.mod_lt p hm
  have hp : p / m * m + p % m = p := by
    rw [Nat.mul_comm]
    exact Nat.div_add_mod p m
  unfold flatByte
  rw [Vector.getElem?_eq_getElem hmod, Vector.getElem?_eq_getElem hmod,
    getElem_patch d (Nat.le_add_right _ _) hmod, Nat.add_sub_cancel_left, hp]
  rfl

end Patch

/-! ## Reading runs -/

theorem length_flatBytes (d : Nat → Vector UInt8 m) (start position total : Nat) :
    (flatBytes d start position total).length = total := by
  simp [flatBytes]

theorem getElem?_flatBytes (d : Nat → Vector UInt8 m) (start position : Nat) {total k : Nat}
    (hk : k < total) :
    (flatBytes d start position total)[k]? = some (flatByte d start (position + k)) := by
  simp [flatBytes, hk]

theorem flatBytes_add (d : Nat → Vector UInt8 m) (start position a b : Nat) :
    flatBytes d start position (a + b) =
      flatBytes d start position a ++ flatBytes d start (position + a) b := by
  unfold flatBytes
  rw [List.range_add, List.map_append, List.map_map]
  congr 1
  refine List.map_congr_left fun k _ => ?_
  show flatByte d start (position + (a + k)) = _
  rw [Nat.add_assoc]

/-- A part of a run from the start. -/
theorem take_drop_flatBytes (d : Nat → Vector UInt8 m) (start total offset count : Nat) :
    ((flatBytes d start 0 total).drop offset).take count =
      flatBytes d start offset (min count (total - offset)) := by
  refine List.ext_getElem? fun k => ?_
  by_cases hk : k < min count (total - offset)
  · rw [getElem?_flatBytes _ _ _ hk, List.getElem?_take_of_lt (by omega), List.getElem?_drop,
      getElem?_flatBytes _ _ _ (by omega), Nat.zero_add]
  · rw [List.getElem?_eq_none, List.getElem?_eq_none]
    · rw [length_flatBytes]
      omega
    · rw [List.length_take, List.length_drop, length_flatBytes]
      omega

/-- A patched array: what comes before, the new bytes, what comes after. -/
theorem flatBytes_patch (hm : 0 < m) (d : Nat → Vector UInt8 m) (start : Nat) {position total : Nat}
    {bytes : List UInt8} (hfit : position + bytes.length ≤ total) :
    flatBytes (patch d start position bytes) start 0 total =
      (flatBytes d start 0 total).take position ++ bytes ++
        (flatBytes d start 0 total).drop (position + bytes.length) := by
  have htake : ((flatBytes d start 0 total).take position).length = position := by
    rw [List.length_take, length_flatBytes]
    omega
  refine List.ext_getElem? fun k => ?_
  by_cases hk : k < total
  · rw [getElem?_flatBytes _ _ _ hk, Nat.zero_add, flatByte_patch d hm,
      List.append_assoc]
    by_cases hbefore : k < position
    · rw [if_neg (by omega), List.getElem?_append_left (by omega), List.getElem?_take_of_lt hbefore,
        getElem?_flatBytes _ _ _ hk, Nat.zero_add]
    · rw [if_pos (by omega), List.getElem?_append_right (by omega), htake]
      by_cases hinside : k - position < bytes.length
      · rw [List.getElem?_append_left hinside, List.getElem?_eq_getElem hinside, Option.getD_some]
      · rw [List.getElem?_eq_none (by omega), Option.getD_none,
          List.getElem?_append_right (by omega), List.getElem?_drop,
          show position + bytes.length + (k - position - bytes.length) = k by omega,
          getElem?_flatBytes _ _ _ hk, Nat.zero_add]
  · rw [List.getElem?_eq_none (by rw [length_flatBytes]; omega), List.getElem?_eq_none]
    rw [List.length_append, List.length_append, htake, List.length_drop, length_flatBytes]
    omega

/-- A run inside one block is a slice of that block. -/
theorem flatBytes_one (d : Nat → Vector UInt8 m) (start : Nat) {position count : Nat}
    (hfit : position % m + count ≤ m) :
    flatBytes d start position count = slice (d (start + position / m)) (position % m) count := by
  refine List.ext_getElem? fun k => ?_
  by_cases hk : k < count
  · have hm : 0 < m := by omega
    have hsum : position + k = position % m + k + m * (position / m) := by
      have := Nat.mod_add_div position m
      omega
    have hdiv : (position + k) / m = position / m := by
      rw [hsum, Nat.add_mul_div_left _ _ hm, Nat.div_eq_of_lt (by omega), Nat.zero_add]
    have hmod : (position + k) % m = position % m + k := by
      rw [hsum, Nat.add_mul_mod_self_left, Nat.mod_eq_of_lt (by omega)]
    rw [getElem?_flatBytes _ _ _ hk, getElem?_slice _ _ _ hk]
    unfold flatByte
    rw [hdiv, hmod, Vector.getElem?_eq_getElem (by omega)]
    rfl
  · rw [List.getElem?_eq_none (by rw [length_flatBytes]; omega),
      List.getElem?_eq_none (by rw [length_slice _ hfit]; omega)]

/-! ## Whole blocks -/

variable {B : Type}

/-- `count` blocks from `start` on, set to `b`. -/
def fillBlocks (d : Nat → B) (start count : Nat) (b : B) : Nat → B := fun s =>
  if start ≤ s ∧ s < start + count then b else d s

theorem fillBlocks_zero (d : Nat → B) (start : Nat) (b : B) : fillBlocks d start 0 b = d := by
  funext s
  exact if_neg (by omega)

theorem fillBlocks_succ (d : Nat → B) (start i : Nat) (b : B) :
    Function.update (fillBlocks d start i b) (start + i) b = fillBlocks d start (i + 1) b := by
  funext s
  unfold fillBlocks
  by_cases hs : s = start + i
  · rw [hs, Function.update_self, if_pos (by omega)]
  · rw [Function.update_of_ne hs]
    by_cases hin : start ≤ s ∧ s < start + i
    · rw [if_pos hin, if_pos (by omega)]
    · rw [if_neg hin, if_neg (by omega)]

/-- `count` blocks copied from `source` on to `start` on. -/
def copyBlocks (d : Nat → B) (source start count : Nat) : Nat → B := fun s =>
  if start ≤ s ∧ s < start + count then d (source + (s - start)) else d s

theorem copyBlocks_zero (d : Nat → B) (source start : Nat) : copyBlocks d source start 0 = d := by
  funext s
  exact if_neg (by omega)

/-- A block still to be copied has not been overwritten. -/
theorem copyBlocks_source (d : Nat → B) {source start i count : Nat}
    (h : start ≤ source ∨ source + count ≤ start) (hi : i < count) :
    copyBlocks d source start i (source + i) = d (source + i) := by
  unfold copyBlocks
  exact if_neg (by omega)

theorem copyBlocks_succ (d : Nat → B) (source start i : Nat) :
    Function.update (copyBlocks d source start i) (start + i) (d (source + i)) =
      copyBlocks d source start (i + 1) := by
  funext s
  unfold copyBlocks
  by_cases hs : s = start + i
  · rw [hs, Function.update_self, if_pos (by omega), Nat.add_sub_cancel_left]
  · rw [Function.update_of_ne hs]
    by_cases hin : start ≤ s ∧ s < start + i
    · rw [if_pos hin, if_pos (by omega)]
    · rw [if_neg hin, if_neg (by omega)]

/-! ## Frames -/

/-- `d'` differs from `d` in blocks of `P` only. -/
def DiffersIn (P : Nat → Prop) (d d' : Nat → B) : Prop := ∀ s, ¬ P s → d' s = d s

section DiffersIn

variable {P : Nat → Prop} {d d' d'' : Nat → B} {start count : Nat}

theorem DiffersIn.refl (P : Nat → Prop) (d : Nat → B) : DiffersIn P d d := fun _ _ => rfl

theorem DiffersIn.trans (h : DiffersIn P d d') (h' : DiffersIn P d' d'') :
    DiffersIn P d d'' := fun s hs => (h' s hs).trans (h s hs)

theorem fillBlocks_differsIn (h : ∀ s, start ≤ s → s < start + count → P s) (b : B) :
    DiffersIn P d (fillBlocks d start count b) := by
  intro s hs
  exact if_neg fun hin => hs (h s hin.1 hin.2)

theorem copyBlocks_differsIn (h : ∀ s, start ≤ s → s < start + count → P s) (source : Nat) :
    DiffersIn P d (copyBlocks d source start count) := by
  intro s hs
  exact if_neg fun hin => hs (h s hin.1 hin.2)

/-- A patch inside an extent. -/
theorem patch_differsIn {d : Nat → Vector UInt8 m} {position : Nat} {bytes : List UInt8}
    (h : ∀ s, start ≤ s → s < start + count → P s) (hfit : position + bytes.length ≤ m * count) :
    DiffersIn P d (patch d start position bytes) := by
  intro s hs
  by_cases hbefore : s < start
  · exact patch_before d hbefore
  · refine patch_outside d (.inr ?_)
    have hpast : count ≤ s - start := by
      by_contra hlt
      exact hs (h s (by omega) (by omega))
    have := Nat.mul_le_mul_right m hpast
    rw [Nat.mul_comm] at hfit
    omega

end DiffersIn

end GenericKernel.Lib
