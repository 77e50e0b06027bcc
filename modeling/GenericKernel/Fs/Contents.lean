import GenericKernel.Fs.Invariant

/-!
# File contents

The contents of a file are the bytes of its extent up to its length. `read`
returns them exactly. `write` and `truncate` leave what a growable byte array
would hold, with one exception: `ensure_capacity` searches the new run with the
file's own extent counted as free and zeroes that run before it copies, so bytes
of the old extent that the new run covers are lost. `GrowthKeeps` says that none
of them mattered, and `file_contents_exact` that this is the exact condition.
-/

namespace GenericKernel.Fs

open GenericKernel.Lib

/-- The bytes of a file; what is no file has none. -/
def contents (d : Disk) (inode : Nat) : List UInt8 :=
  match record d inode with
  | .ok e => if e.kind = 1 then flatBytes d e.first 0 e.len.toNat else []
  | .error _ => []

/-- Growing to `needed` sectors loses none of the first `bound` bytes: the least
free run covers only bytes that are zero. -/
def GrowthKeeps (sectors : Nat) (d : Disk) (T : Table) (inode needed bound : Nat) : Prop :=
  (T inode).sectors < needed → ∀ a, IsLeast {a | FreeRun sectors T inode needed a} a →
    ∀ p < bound, a ≤ (T inode).first + p / SECTOR_SIZE →
      (T inode).first + p / SECTOR_SIZE < a + needed → flatByte d (T inode).first p = 0

section Bytes

variable {d d' : Disk} {e : DiskInode} {inode : Nat}

theorem contents_eq (h : record d inode = .ok e) (hfile : e.kind = 1) :
    contents d inode = flatBytes d e.first 0 e.len.toNat := by
  unfold contents
  rw [h]
  exact if_pos hfile

theorem length_contents (h : record d inode = .ok e) (hfile : e.kind = 1) :
    (contents d inode).length = e.len.toNat := by
  rw [contents_eq h hfile, length_flatBytes]

theorem getElem?_contents (h : record d inode = .ok e) (hfile : e.kind = 1) {p : Nat}
    (hp : p < e.len.toNat) : (contents d inode)[p]? = some (flatByte d e.first p) := by
  rw [contents_eq h hfile, getElem?_flatBytes _ _ _ hp, Nat.zero_add]

/-- A byte depends on its sector only. -/
theorem flatByte_congr {start p : Nat}
    (h : d' (start + p / SECTOR_SIZE) = d (start + p / SECTOR_SIZE)) :
    flatByte d' start p = flatByte d start p := by
  unfold flatByte
  rw [h]

theorem flatByte_zeroSector {start p : Nat} (h : d (start + p / SECTOR_SIZE) = zeroSector) :
    flatByte d start p = 0 := by
  have hlt : p % SECTOR_SIZE < SECTOR_SIZE := Nat.mod_lt _ (by decide)
  unfold flatByte zeroSector at *
  rw [h, Vector.getElem?_eq_getElem hlt, Vector.getElem_replicate]
  rfl

/-- A byte of a moved file: the old one, unless the new run covers it. -/
theorem flatByte_relocate (d : Disk) (e : DiskInode) {a needed p : Nat}
    (hp : p / SECTOR_SIZE < e.sectors) :
    flatByte (relocate d e a needed) a p =
      if a ≤ e.first + p / SECTOR_SIZE ∧ e.first + p / SECTOR_SIZE < a + needed then 0
      else flatByte d e.first p := by
  have hsector : relocate d e a needed (a + p / SECTOR_SIZE) =
      fillBlocks d a needed zeroSector (e.first + p / SECTOR_SIZE) := by
    unfold relocate copyBlocks
    rw [if_pos ⟨Nat.le_add_right _ _, Nat.add_lt_add_left hp a⟩, Nat.add_sub_cancel_left]
  by_cases hcover : a ≤ e.first + p / SECTOR_SIZE ∧ e.first + p / SECTOR_SIZE < a + needed
  · rw [if_pos hcover]
    refine flatByte_zeroSector ?_
    rw [hsector]
    exact if_pos hcover
  · rw [if_neg hcover]
    unfold flatByte
    rw [hsector, fillBlocks, if_neg hcover]

/-- A byte of a file after its gap is zeroed and its data is put. -/
theorem flatByte_stored (d : Disk) (e : DiskInode) (offset : Nat) (data : List UInt8) (p : Nat) :
    flatByte (stored d e offset data) e.first p =
      if offset ≤ p ∧ p < offset + data.length then data[p - offset]?.getD 0
      else if e.len.toNat ≤ p ∧ p < offset then 0
      else flatByte d e.first p := by
  unfold stored
  rw [flatByte_patch _ (by decide), flatByte_patch _ (by decide)]
  by_cases hdata : offset ≤ p ∧ p < offset + data.length
  · rw [if_pos hdata, if_pos hdata.1, List.getElem?_eq_getElem (by omega)]
    rfl
  · rw [if_neg hdata]
    have hnone : offset ≤ p → data[p - offset]? = none :=
      fun hle => List.getElem?_eq_none (by omega)
    by_cases hgap : e.len.toNat ≤ p ∧ p < offset
    · rw [if_neg (by omega), if_pos hgap.1, if_pos hgap,
        List.getElem?_replicate_of_lt (by omega)]
      rfl
    · have hzeros : e.len.toNat ≤ p →
          (List.replicate (offset - e.len.toNat) (0 : UInt8))[p - e.len.toNat]? = none :=
        fun hle => List.getElem?_eq_none (by rw [List.length_replicate]; omega)
      rw [if_neg hgap]
      by_cases hle : offset ≤ p
      · rw [if_pos hle, hnone hle]
        by_cases hlen : e.len.toNat ≤ p
        · rw [if_pos hlen, hzeros hlen]
          rfl
        · rw [if_neg hlen]
          rfl
      · rw [if_neg hle]
        by_cases hlen : e.len.toNat ≤ p
        · rw [if_pos hlen, hzeros hlen]
          rfl
        · rw [if_neg hlen]

/-- A byte of a file whose sectors are outside what one other file may write. -/
theorem Consistent.flatByte_frame {sectors j p : Nat} {T : Table} (h : Consistent sectors d T)
    (hj : j ∈ inodeNumbers) (hfile : (T j).kind = 1) (hne : j ≠ inode) (hp : p < (T j).len.toNat)
    (hdata : ∀ s, DATA_START ≤ s → ¬ Private T inode s → d' s = d s) :
    flatByte d' (T j).first p = flatByte d (T j).first p := by
  have hindex : p / SECTOR_SIZE < (T j).sectors :=
    Nat.div_lt_of_lt_mul (lt_of_lt_of_le hp (h.layout.holds j hj hfile))
  have hextent := hasExtent_of_pos hfile (Nat.zero_lt_of_lt hindex)
  have hlow := (h.layout.inside j hj hextent).1
  refine flatByte_congr (hdata _ (le_trans hlow (Nat.le_add_right _ _)) ?_)
  intro hprivate
  rcases hprivate.2 j hj hne hextent with hbefore | hpast
  · exact absurd hbefore (Nat.not_lt.mpr (Nat.le_add_right _ _))
  · exact absurd hpast (Nat.not_le.mpr (Nat.add_lt_add_left hindex _))

end Bytes

/-- Two lists of one length, compared byte by byte. -/
theorem list_eq_iff {l l' : List UInt8} {n : Nat} {f : Nat → UInt8} (hl : l.length = n)
    (hl' : l'.length = n) (hspec : ∀ p < n, l'[p]? = some (f p)) :
    l = l' ↔ ∀ p < n, l[p]? = some (f p) := by
  constructor
  · intro heq p hp
    rw [heq]
    exact hspec p hp
  · intro hall
    refine List.ext_getElem? fun p => ?_
    by_cases hp : p < n
    · rw [hall p hp, hspec p hp]
    · rw [List.getElem?_eq_none (by omega), List.getElem?_eq_none (by omega)]

section Stored

variable {sectors inode offset : Nat} {d d' : Disk} {T : Table} {data : List UInt8}
  {newLen : UInt64} {α : Type} {value : α} {r : Except VfsError α}

/-- A byte of the file after growing, before anything is put. -/
theorem Capacity.flatByte {needed p : Nat} {e : DiskInode} {d₁ : Disk} (hn : sectors < wordSize)
    (hp : p / SECTOR_SIZE < (T inode).sectors) (h : Capacity sectors d T inode needed (.ok e) d₁) :
    Lib.flatByte d₁ e.first p = Lib.flatByte d (T inode).first p ∨
      ∃ a, (T inode).sectors < needed ∧ IsLeast {a | FreeRun sectors T inode needed a} a ∧
        a ≤ (T inode).first + p / SECTOR_SIZE ∧
        (T inode).first + p / SECTOR_SIZE < a + needed ∧ Lib.flatByte d₁ e.first p = 0 := by
  cases h with
  | fits _ => exact .inl rfl
  | @moved a hless hsmall ha =>
      rw [relocated_first hn ha.1, flatByte_relocate d (T inode) hp]
      by_cases hcover : a ≤ (T inode).first + p / SECTOR_SIZE ∧
          (T inode).first + p / SECTOR_SIZE < a + needed
      · rw [if_pos hcover]
        exact .inr ⟨a, hless, ha, hcover.1, hcover.2, rfl⟩
      · rw [if_neg hcover]
        exact .inl rfl

/-- The record that a successful operation commits. -/
theorem Stored.record (h : Consistent sectors d T)
    (hs : Stored sectors d T inode offset data newLen value (.ok value) d') :
    ∃ e d₁, inode ∈ inodeNumbers ∧ (T inode).kind = 1 ∧
      Capacity sectors d T inode (sectorsForLen (offset + data.length)) (.ok e) d₁ ∧
      Fs.record d' inode = .ok { e with len := newLen } ∧
      ∀ p, p / SECTOR_SIZE < e.sectors →
        Lib.flatByte d' e.first p = Lib.flatByte (stored d₁ e offset data) e.first p := by
  cases hs with
  | @done e d₁ hi hkind hcapacity =>
      have he := hcapacity.housed h.device.2 h.layout hi hkind
      obtain ⟨start, count, hsame⟩ := he.same
      have hstorable : DiskInode.Storable { e with len := newLen } := by
        have := h.shows.storable (inTable_of_mem hi)
        rw [hsame]
        exact this
      refine ⟨e, d₁, hi, hkind, hcapacity, record_putRecord_self _ _ hstorable, fun p hp => ?_⟩
      refine flatByte_congr (putRecord_outside _ _ (inTable_of_mem hi) (.inr ?_))
      exact le_trans (he.free (Nat.zero_lt_of_lt hp)).low (Nat.le_add_right _ _)

/-- **Contents after a successful operation**: the array a growable one would
hold, exactly if growing lost nothing. -/
theorem Stored.contents_iff (h : Consistent sectors d T)
    (hrange : offset + data.length + SECTOR_SIZE - 1 < wordSize)
    (hs : Stored sectors d T inode offset data newLen value (.ok value) d')
    (hlow : offset + data.length ≤ newLen.toNat)
    (hhigh : newLen.toNat ≤ max (T inode).len.toNat (offset + data.length)) :
    (contents d' inode).length = newLen.toNat ∧
    ((∀ p < newLen.toNat, (contents d' inode)[p]? =
      some (if offset ≤ p ∧ p < offset + data.length then data[p - offset]?.getD 0
        else (contents d inode)[p]?.getD 0)) ↔
    GrowthKeeps sectors d T inode (sectorsForLen (offset + data.length))
      (min (T inode).len.toNat offset)) := by
  obtain ⟨e, d₁, hi, hkind, hcapacity, hrecord, hbytes⟩ := hs.record h
  obtain ⟨he, hroom, hlen, _⟩ := hcapacity.room h hrange hi hkind
  obtain ⟨start, count, hsame⟩ := he.same
  have hlenEq : e.len = (T inode).len := by rw [hsame]
  have hfile : e.kind = 1 := by
    rw [hsame]
    exact hkind
  obtain ⟨_, _, hleast⟩ := sectorsForLen_spec hrange
  have hold := h.layout.holds inode hi hkind
  have hbefore := h.shows inode (inTable_of_mem hi)
  -- a byte of the file afterwards
  have hbyte : ∀ p < newLen.toNat, (contents d' inode)[p]? =
      some (if offset ≤ p ∧ p < offset + data.length then data[p - offset]?.getD 0
        else if (T inode).len.toNat ≤ p ∧ p < offset then 0
        else Lib.flatByte d₁ e.first p) := by
    intro p hp
    have hindex : p / SECTOR_SIZE < e.sectors := Nat.div_lt_of_lt_mul (by omega)
    rw [getElem?_contents hrecord hfile hp]
    show some (Lib.flatByte d' e.first p) = _
    rw [hbytes p hindex, flatByte_stored, hlenEq]
  -- and the byte a growable array would hold there
  have hspec : ∀ p, (contents d inode)[p]?.getD 0 =
      if p < (T inode).len.toNat then Lib.flatByte d (T inode).first p else 0 := by
    intro p
    by_cases hp : p < (T inode).len.toNat
    · rw [if_pos hp, getElem?_contents hbefore hkind hp]
      rfl
    · rw [if_neg hp, List.getElem?_eq_none (by rw [length_contents hbefore hkind]; omega)]
      rfl
  refine ⟨length_contents hrecord hfile, ?_, ?_⟩
  · intro hall hless a ha p hp hcover hcover'
    have hp' : p < newLen.toNat := by omega
    have hsectors : p / SECTOR_SIZE < (T inode).sectors := Nat.div_lt_of_lt_mul (by omega)
    have hequal := hall p hp'
    rw [hbyte p hp', if_neg (by omega), if_neg (by omega), if_neg (by omega), hspec,
      if_pos (by omega)] at hequal
    rw [← Option.some.inj hequal]
    cases hcapacity with
    | fits hfits => omega
    | @moved a' _ _ ha' =>
        obtain rfl : a = a' := ha.unique ha'
        rw [relocated_first h.device.2 ha.1, flatByte_relocate d (T inode) hsectors, if_pos ⟨hcover, hcover'⟩]
  · intro hkeeps p hp
    rw [hbyte p hp, hspec]
    by_cases hdata : offset ≤ p ∧ p < offset + data.length
    · rw [if_pos hdata, if_pos hdata]
    · rw [if_neg hdata, if_neg hdata]
      by_cases hin : p < (T inode).len.toNat
      · have hsectors : p / SECTOR_SIZE < (T inode).sectors := Nat.div_lt_of_lt_mul (by omega)
        rw [if_neg (by omega), if_pos hin]
        rcases hcapacity.flatByte h.device.2 hsectors with
          hsame | ⟨a, hless, ha, hcover, hcover', hzero⟩
        · rw [hsame]
        · -- growing means that the new end lies past the old extent
          have hpast : SECTOR_SIZE * (T inode).sectors < offset + data.length := by
            by_contra hnot
            have := hleast _ (Nat.not_lt.mp hnot)
            omega
          rw [hzero, hkeeps hless a ha p (by omega) hcover hcover']
      · rw [if_pos (by omega), if_neg hin]

theorem Stored.write_contents_iff {count : Nat} (h : Consistent sectors d T)
    (hrange : offset + data.length + SECTOR_SIZE - 1 < wordSize)
    (hs : Stored sectors d T inode offset data
      (max (T inode).len (UInt64.ofNat (offset + data.length))) data.length (.ok count) d') :
    contents d' inode = overwrite (contents d inode) offset data ↔
      GrowthKeeps sectors d T inode (sectorsForLen (offset + data.length))
        (min (T inode).len.toNat offset) := by
  obtain ⟨rfl, hin, hkind⟩ : count = data.length ∧ InTable inode ∧ (T inode).kind = 1 := by
    cases hs with
    | done hi hkind _ => exact ⟨rfl, inTable_of_mem hi, hkind⟩
  have hrecord := h.shows inode hin
  have hnew : (max (T inode).len (UInt64.ofNat (offset + data.length))).toNat =
      max (T inode).len.toNat (offset + data.length) := by
    rw [toNat_max, toNat_ofNat_end hrange]
  obtain ⟨hlength, hiff⟩ := hs.contents_iff h hrange (by rw [hnew]; omega) (by rw [hnew])
  rw [hnew] at hlength hiff
  refine Iff.trans ?_ hiff
  refine list_eq_iff hlength (by rw [length_overwrite, length_contents hrecord hkind]) fun p hp => ?_
  exact getElem?_overwrite _ (by rw [length_contents hrecord hkind]; exact hp)

theorem Stored.truncate_contents_iff {len : Nat} (h : Consistent sectors d T)
    (hrange : len + SECTOR_SIZE - 1 < wordSize)
    (hs : Stored sectors d T inode len [] (UInt64.ofNat len) () (.ok ()) d') :
    contents d' inode = resize (contents d inode) len ↔
      GrowthKeeps sectors d T inode (sectorsForLen len) (min (T inode).len.toNat len) := by
  have hnew : (UInt64.ofNat len).toNat = len := toNat_ofNat_end hrange
  obtain ⟨hlength, hiff⟩ := hs.contents_iff h hrange
    (by rw [hnew]; exact le_refl _) (by rw [hnew]; exact le_max_right _ _)
  rw [hnew] at hlength hiff
  refine Iff.trans ?_ hiff
  refine list_eq_iff hlength (length_resize _ _) fun p hp => ?_
  rw [if_neg (by rw [List.length_nil]; omega)]
  exact getElem?_resize _ hp

end Stored

/-- **`read`** returns the bytes asked for. -/
theorem read_evaluate {sectors inode : Nat} {d : Disk} {T : Table} (h : Consistent sectors d T)
    (hi : inode ∈ inodeNumbers) (hfile : (T inode).kind = 1) (offset bufferLen : Nat) :
    evaluate sectors .outOfRange (read inode offset bufferLen) d =
      (.ok (((contents d inode).drop offset).take bufferLen), d) := by
  have hm : Mounted (perfect sectors) d T := Consistent.mounted h
  rw [(read_runs hm trivial hi hfile offset bufferLen).evaluate,
    contents_eq (h.shows inode (inTable_of_mem hi)) hfile, take_drop_flatBytes]

/-- **File contents.** In every reachable state and for every file: `read`
returns the bytes asked for; a successful `write` or `truncate` leaves what a
growable byte array would hold if and only if growing loses no byte that is not
zero. -/
theorem file_contents_exact {sectors inode : Nat} {d : Disk} {T : Table} (h : Reachable sectors d)
    (hT : Shows d T) (hi : inode ∈ inodeNumbers) (hfile : (T inode).kind = 1) :
    (∀ offset bufferLen, evaluate sectors .outOfRange (read inode offset bufferLen) d =
      (.ok (((contents d inode).drop offset).take bufferLen), d)) ∧
    (∀ offset data count d', offset + data.length + SECTOR_SIZE - 1 < wordSize →
      evaluate sectors .outOfRange (write sectors inode offset data) d = (.ok count, d') →
      (contents d' inode = overwrite (contents d inode) offset data ↔
        GrowthKeeps sectors d T inode (sectorsForLen (offset + data.length))
          (min (T inode).len.toNat offset))) ∧
    (∀ len d', len + SECTOR_SIZE - 1 < wordSize →
      evaluate sectors .outOfRange (truncate sectors inode len) d = (.ok (), d') →
      (contents d' inode = resize (contents d inode) len ↔
        GrowthKeeps sectors d T inode (sectorsForLen len) (min (T inode).len.toNat len))) := by
  obtain ⟨T₀, hT₀⟩ := h.consistent
  have hC := hT₀.of_shows hT
  refine ⟨read_evaluate hC hi hfile, fun offset data count d' hrange heval => ?_,
    fun len d' hrange heval => ?_⟩
  · obtain ⟨r, d₁, hstored, heval'⟩ := write_evaluate hC inode hrange
    rw [heval] at heval'
    obtain ⟨rfl, rfl⟩ := Prod.mk.inj heval'
    exact hstored.write_contents_iff hC hrange
  · obtain ⟨r, d₁, hstored, heval'⟩ := truncate_evaluate hC inode hrange
    rw [heval] at heval'
    obtain ⟨rfl, rfl⟩ := Prod.mk.inj heval'
    exact hstored.truncate_contents_iff hC hrange

/-- No other record of a filesystem with one file has an extent. -/
theorem blankTable_noExtent (e : DiskInode) :
    ∀ i ∈ inodeNumbers, i ≠ 2 → ¬ (Function.update blankTable 2 e i).HasExtent := by
  intro i hi hne hextent
  have hkind := hextent.1
  rw [Function.update_of_ne hne, blankTable_unused i hi] at hkind
  exact absurd hkind (by decide)

/-- The byte 5 is written to the file. -/
def fiveFile : Disk := step 32 oneFile (.write 2 0 [5])

/-- The file has the first sector of the data area. -/
def fiveEntry : DiskInode := { relocated (newEntry 1 "f" 1) DATA_START 1 with len := 1 }

theorem fiveFile_spec : Reachable 32 fiveFile ∧ contents fiveFile 2 = [5] ∧
    Consistent 32 fiveFile (Function.update blankTable 2 fiveEntry) := by
  have hC := createFile_zeros.2
  have hrange : 0 + [(5 : UInt8)].length + SECTOR_SIZE - 1 < wordSize := lt_wordSize (by decide)
  have hone : sectorsForLen (0 + [(5 : UInt8)].length) = 1 := sectorsForLen_eq hrange
  have hleast := @isLeast_dataStart 32 _ 2 (sectorsForLen (0 + [(5 : UInt8)].length))
    (blankTable_noExtent (newEntry 1 "f" 1)) (by rw [hone]; decide)
  obtain ⟨d, heval, hstored⟩ := write_evaluate_done hC hrange two_mem rfl (by rw [hone]; decide)
    hleast.1
  obtain rfl : fiveFile = d := step_eq (.write 2 0 [5]) heval
  refine ⟨reachable_oneFile.step hrange, ?_, ?_⟩
  · refine (hstored.write_contents_iff hC hrange).mpr ?_ |>.trans ?_
    · intro _ _ _ p hp
      exact absurd hp (Nat.not_lt_zero p)
    · rw [contents_eq (hC.shows 2 (inTable_of_mem two_mem)) rfl]
      rfl
  · obtain ⟨e, d₁, hcapacity, hC₁⟩ := hstored.consistent_done hC hrange (write_newLen_le hrange)
    have he : e = relocated (newEntry 1 "f" 1) DATA_START 1 := by
      cases hcapacity with
      | fits hfits =>
          rw [hone] at hfits
          exact absurd hfits (by decide)
      | moved _ _ ha =>
          rw [hleast.unique ha, hone]
          rfl
    rw [he, Function.update_idem] at hC₁
    exact hC₁

/-- A write that needs at most 15 sectors goes through. -/
theorem write_fiveFile {offset : Nat} {data : List UInt8}
    (hrange : offset + data.length + SECTOR_SIZE - 1 < wordSize)
    (hneed : sectorsForLen (offset + data.length) ≤ 15) :
    ∃ d, evaluate 32 .outOfRange (write 32 2 offset data) fiveFile = (.ok data.length, d) := by
  have hleast := @isLeast_dataStart 32 _ 2 _ (blankTable_noExtent fiveEntry)
    (Nat.add_le_add_left hneed DATA_START)
  obtain ⟨d, heval, _⟩ := write_evaluate_done fiveFile_spec.2.2 hrange two_mem rfl
    (lt_of_le_of_lt hneed (by decide)) hleast.1
  exact ⟨d, heval⟩

/-- A write behind the byte 5, and one that replaces it and makes the file grow. -/
theorem file_contents_exact_fiveFile : Reachable 32 fiveFile ∧ contents fiveFile 2 = [5] ∧
    evaluate 32 .outOfRange (read 2 0 4) fiveFile = (.ok [5], fiveFile) ∧
    (∃ d, evaluate 32 .outOfRange (write 32 2 3 [7]) fiveFile = (.ok 1, d) ∧
      contents d 2 = [5, 0, 0, 7]) ∧
    ∃ d, evaluate 32 .outOfRange (write 32 2 0 (List.replicate 600 7)) fiveFile = (.ok 600, d) ∧
      contents d 2 = List.replicate 600 7 := by
  obtain ⟨hreach, hfive, hC⟩ := fiveFile_spec
  obtain ⟨hread, hwrite, _⟩ := file_contents_exact hreach hC.shows two_mem rfl
  have hrange : 3 + [(7 : UInt8)].length + SECTOR_SIZE - 1 < wordSize := lt_wordSize (by decide)
  have hgrow : 0 + (List.replicate 600 (7 : UInt8)).length + SECTOR_SIZE - 1 < wordSize := by
    rw [List.length_replicate]
    exact lt_wordSize (by decide)
  have hone : sectorsForLen (3 + [(7 : UInt8)].length) = 1 := sectorsForLen_eq hrange
  have htwo : sectorsForLen (0 + (List.replicate 600 (7 : UInt8)).length) = 2 := by
    rw [sectorsForLen_eq hgrow, List.length_replicate]
    rfl
  obtain ⟨d, heval⟩ := write_fiveFile hrange (by rw [hone]; decide)
  obtain ⟨d', heval'⟩ := write_fiveFile hgrow (by rw [htwo]; decide)
  refine ⟨hreach, hfive, ?_, ⟨d, heval, ?_⟩, d', ?_, ?_⟩
  · rw [hread, hfive]
    rfl
  · -- the file keeps its sector
    refine ((hwrite 3 [7] 1 d hrange heval).mpr fun hless => ?_).trans (by rw [hfive]; rfl)
    rw [hone] at hless
    exact absurd hless (by decide)
  · rw [heval', List.length_replicate]
  · -- the run that is found covers the byte 5, which the data replaces
    refine ((hwrite 0 _ _ d' hgrow heval').mpr fun _ a _ p hp => ?_).trans ?_
    · exact absurd hp (Nat.not_lt_zero p)
    · rw [hfive, overwrite, List.take_zero, List.nil_append, List.drop_eq_nil_of_le,
        List.append_nil]
      rw [List.length_replicate]
      decide

/-- A file of one byte 5 loses it when a write at 600 makes it grow: the new run
starts at its own sector. -/
theorem growth_loses_byte : ∃ d d', Reachable 32 d ∧ contents d 2 = [5] ∧
    evaluate 32 .outOfRange (write 32 2 600 [7]) d = (.ok 1, d') ∧
    contents d' 2 ≠ overwrite (contents d 2) 600 [7] := by
  obtain ⟨hreach, hfive, hC⟩ := fiveFile_spec
  have hword : 600 + 1 + SECTOR_SIZE - 1 < wordSize := lt_wordSize (by decide)
  have hneeds : sectorsForLen (600 + [(7 : UInt8)].length) = 2 := sectorsForLen_eq hword
  have hleast := @isLeast_dataStart 32 _ 2 (sectorsForLen (600 + [(7 : UInt8)].length))
    (blankTable_noExtent fiveEntry) (by rw [hneeds]; decide)
  obtain ⟨d, heval, hstored⟩ := write_evaluate_done hC hword two_mem rfl (by rw [hneeds]; decide)
    hleast.1
  refine ⟨fiveFile, d, hreach, hfive, heval, fun hequal => ?_⟩
  -- the run starts at the file's own sector, so the byte 5 would have to be zero
  have hkeeps := (hstored.write_contents_iff hC hword).mp hequal
  have hzero := hkeeps (by rw [hneeds]; decide) DATA_START hleast 0 (by decide) (by decide)
    (by rw [hneeds]; decide)
  have hbyte := getElem?_contents (hC.shows 2 (inTable_of_mem two_mem)) rfl (p := 0) (by decide)
  rw [hfive, hzero] at hbyte
  exact absurd hbyte (by decide)

end GenericKernel.Fs
