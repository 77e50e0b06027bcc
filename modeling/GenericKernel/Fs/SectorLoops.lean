import GenericKernel.Fs.GenericFs
import GenericKernel.Lib.Flat

/-!
# The sector loops act on a flat byte array

For an extent of `count` sectors at `start` inside the device: `overlay` (the
loop of `write` and of `zero_range`) patches exactly the given bytes, `readLoop`
returns exactly the bytes asked for, and the two loops of `ensure_capacity` zero
and then copy whole sectors.
-/

namespace GenericKernel.Fs

open GenericKernel.Lib

variable {E : Env Sector BlockError} {start count : Nat}

/-- An extent inside a device whose size is a `u64`. The start of an empty one
is never used. -/
structure InDevice (E : Env Sector BlockError) (start count : Nat) : Prop where
  size : E.size < wordSize
  stop : 0 < count → start + count ≤ E.size

/-- The sector of a byte of the extent. -/
theorem InDevice.sector (h : InDevice E start count) {position : Nat}
    (hp : position < SECTOR_SIZE * count) :
    wrappingAdd start (position / SECTOR_SIZE) = start + position / SECTOR_SIZE ∧
      start + position / SECTOR_SIZE < E.size := by
  have hindex : position / SECTOR_SIZE < count := Nat.div_lt_of_lt_mul hp
  have := h.stop (Nat.zero_lt_of_lt hindex)
  have := h.size
  exact ⟨wrappingAdd_of_lt (by omega), by omega⟩

/-- **Overlay** patches the bytes. -/
theorem overlay_runs (h : InDevice E start count) (fuel : Nat) :
    ∀ {position : Nat} {bytes : List UInt8} {d : Disk}, bytes.length ≤ fuel →
    position + bytes.length ≤ SECTOR_SIZE * count →
    (∀ k, E.inv (patch d start position (bytes.take k))) →
    Runs E (overlay start fuel position bytes) d (.ok ()) (patch d start position bytes) := by
  induction fuel with
  | zero =>
      intro position bytes d hfuel _ _
      rw [List.length_eq_zero_iff.mp (Nat.le_zero.mp hfuel), patch_nil]
      exact Runs.pure ()
  | succ fuel ih =>
      intro position bytes d hfuel hfit hinv
      unfold overlay
      by_cases hnil : bytes.length = 0
      · rw [if_pos hnil, List.length_eq_zero_iff.mp hnil, patch_nil]
        exact Runs.pure ()
      rw [if_neg hnil]
      have hsector := h.sector (show position < SECTOR_SIZE * count by omega)
      have hwithin : position % SECTOR_SIZE < SECTOR_SIZE := Nat.mod_lt _ (by decide)
      generalize hchunk : min (SECTOR_SIZE - position % SECTOR_SIZE) bytes.length = chunk
      have hlen : (bytes.take chunk).length = chunk := by
        rw [List.length_take]
        omega
      -- the chunk lies in one sector, and the rest is handled by the next rounds
      have hone : patch d start position (bytes.take chunk) =
          Function.update d (start + position / SECTOR_SIZE)
            (splice (d (start + position / SECTOR_SIZE)) (position % SECTOR_SIZE)
              (bytes.take chunk)) := patch_one d (by rw [hlen]; omega)
      have hcompose : ∀ rest, patch (patch d start position (bytes.take chunk)) start
          (position + chunk) rest = patch d start position (bytes.take chunk ++ rest) := by
        intro rest
        have := @patch_append _ d start position (bytes.take chunk) rest
        rw [hlen] at this
        exact this
      have hd : E.inv d := by
        have := hinv 0
        rw [List.take_zero, patch_nil] at this
        exact this
      have hread := Reads.readBlock hd mapBlock (Purpose.extent start (position / SECTOR_SIZE))
        (start + position / SECTOR_SIZE)
      rw [Env.answer, if_pos hsector.2] at hread
      have hwrite := Runs.writeBlock (d := d) hd mapBlock (Purpose.extent start (position / SECTOR_SIZE))
        hsector.2 (hone ▸ hinv chunk)
      rw [← hone] at hwrite
      have hrest := @ih (position + chunk) (bytes.drop chunk)
        (patch d start position (bytes.take chunk)) (by rw [List.length_drop]; omega)
        (by rw [List.length_drop]; omega) (by
          intro k
          rw [hcompose, ← List.take_add]
          exact hinv (chunk + k))
      rw [hcompose, List.take_append_drop] at hrest
      dsimp only [readExtent, writeExtent]
      rw [hsector.1, hchunk]
      exact (hread.runs hd).bind (hwrite.bind hrest)

/-- **`zero_range`** patches zeros. -/
theorem zeroRange_runs {entry : DiskInode} {d : Disk} {stop first : Nat}
    (h : InDevice E entry.startSector.toNat count) (hfit : stop ≤ SECTOR_SIZE * count)
    (hinv : ∀ k, E.inv (patch d entry.startSector.toNat first
      ((List.replicate (stop - first) 0).take k))) :
    Runs E (zeroRange entry first stop) d (.ok ())
      (patch d entry.startSector.toNat first (List.replicate (stop - first) 0)) := by
  unfold zeroRange
  by_cases hle : stop ≤ first
  · rw [if_pos hle, Nat.sub_eq_zero_of_le hle, List.replicate_zero, patch_nil]
    exact Runs.pure ()
  · rw [if_neg hle]
    refine overlay_runs h _ ?_ ?_ hinv
    · rw [List.length_replicate]
    · rw [List.length_replicate]
      omega

/-- **The read loop** returns the bytes of the extent. -/
theorem readLoop_reads (h : InDevice E start count) {d : Disk} (hd : E.inv d) (fuel : Nat) :
    ∀ {position total : Nat}, total ≤ fuel → position + total ≤ SECTOR_SIZE * count →
    ∃ k, Reads E k (readLoop start fuel position total) d
      (.ok (flatBytes d start position total)) := by
  induction fuel with
  | zero =>
      intro position total hfuel _
      obtain rfl : total = 0 := Nat.le_zero.mp hfuel
      exact ⟨0, Reads.pure []⟩
  | succ fuel ih =>
      intro position total hfuel hfit
      unfold readLoop
      by_cases hnil : total = 0
      · rw [if_pos hnil, hnil]
        exact ⟨0, Reads.pure []⟩
      rw [if_neg hnil]
      have hsector := h.sector (show position < SECTOR_SIZE * count by omega)
      have hwithin : position % SECTOR_SIZE < SECTOR_SIZE := Nat.mod_lt _ (by decide)
      generalize hchunk : min (SECTOR_SIZE - position % SECTOR_SIZE) total = chunk
      have hread := Reads.readBlock hd mapBlock (Purpose.extent start (position / SECTOR_SIZE))
        (start + position / SECTOR_SIZE)
      rw [Env.answer, if_pos hsector.2] at hread
      obtain ⟨k, hrest⟩ := @ih (position + chunk) (total - chunk) (by omega) (by omega)
      have hall : flatBytes d start position total =
          slice (d (start + position / SECTOR_SIZE)) (position % SECTOR_SIZE) chunk ++
            flatBytes d start (position + chunk) (total - chunk) := by
        rw [← flatBytes_one d start (by omega), ← flatBytes_add]
        congr 1
        omega
      dsimp only [readExtent]
      rw [hsector.1, hchunk, hall]
      exact ⟨1 + (k + 0), hread.bind (hrest.bind (Reads.pure _) rfl) rfl⟩

/-! ## Whole sectors -/

/-- Sector numbers of an extent do not wrap. -/
theorem InDevice.wrappingAdd (h : InDevice E start count) {i : Nat} (hi : i < count) :
    Lib.wrappingAdd start i = start + i ∧ start + i < E.size := by
  have := h.stop (by omega)
  have := h.size
  exact ⟨wrappingAdd_of_lt (by omega), by omega⟩

theorem zeroLoop_runs (h : InDevice E start count) {d : Disk}
    (hinv : ∀ i ≤ count, E.inv (fillBlocks d start i zeroSector)) :
    Runs E (forRange (fun sector => writeExtent start sector zeroSector) count) d
      (.ok ()) (fillBlocks d start count zeroSector) := by
  have hloop := @Runs.forRange _ _ _ _ E
    (fun sector => writeExtent start sector zeroSector) count
    (fun i => fillBlocks d start i zeroSector) (by
      intro i hi
      obtain ⟨hsector, hlt⟩ := h.wrappingAdd hi
      unfold writeExtent
      rw [hsector, ← fillBlocks_succ]
      refine Runs.writeBlock (hinv i (le_of_lt hi)) mapBlock _ hlt ?_
      rw [fillBlocks_succ]
      exact hinv (i + 1) hi)
  rw [fillBlocks_zero] at hloop
  exact hloop

/-- The copy loop of `ensure_capacity`, to a place that does not run over
sectors still to be copied. -/
theorem copyLoop_runs {source : Nat} (h : InDevice E start count)
    (hsource : InDevice E source count) (happart : start ≤ source ∨ source + count ≤ start)
    {d : Disk} (hinv : ∀ i ≤ count, E.inv (copyBlocks d source start i)) :
    Runs E (forRange (fun sector => do
        let buffer ← readExtent source sector
        writeExtent start sector buffer) count) d
      (.ok ()) (copyBlocks d source start count) := by
  have hloop := @Runs.forRange _ _ _ _ E (fun sector => do
      let buffer ← readExtent source sector
      writeExtent start sector buffer) count
    (fun i => copyBlocks d source start i) (by
      intro i hi
      obtain ⟨hto, hlt⟩ := h.wrappingAdd hi
      obtain ⟨hfrom, hlt'⟩ := hsource.wrappingAdd hi
      have hd := hinv i (le_of_lt hi)
      have hread := Reads.readBlock hd mapBlock (Purpose.extent source i) (source + i)
      rw [Env.answer, if_pos hlt', copyBlocks_source d happart hi] at hread
      unfold readExtent writeExtent
      rw [hto, hfrom, ← copyBlocks_succ]
      refine (hread.runs hd).bind (Runs.writeBlock hd mapBlock _ hlt ?_)
      rw [copyBlocks_succ]
      exact hinv (i + 1) hi)
  rw [copyBlocks_zero] at hloop
  exact hloop

/-! ## The extent as one array -/

/-- The bytes of an extent. -/
def extentBytes (d : Disk) (start count : Nat) : List UInt8 :=
  flatBytes d start 0 (SECTOR_SIZE * count)

/-- A patch of the extent replaces the bytes and touches no other sector. -/
theorem extentBytes_patch (d : Disk) (start : Nat) {position : Nat} {bytes : List UInt8}
    (hfit : position + bytes.length ≤ SECTOR_SIZE * count) :
    extentBytes (patch d start position bytes) start count =
        (extentBytes d start count).take position ++ bytes ++
          (extentBytes d start count).drop (position + bytes.length) ∧
      ∀ sector, ¬ (start ≤ sector ∧ sector < start + count) →
        patch d start position bytes sector = d sector := by
  refine ⟨flatBytes_patch (by decide) d start hfit, fun sector hout => ?_⟩
  by_cases hbefore : sector < start
  · exact patch_before d hbefore
  · have hafter : count * SECTOR_SIZE ≤ (sector - start) * SECTOR_SIZE :=
      Nat.mul_le_mul_right _ (by omega)
    rw [Nat.mul_comm] at hafter
    exact patch_outside d (.inr (by omega))

/-- **The sector loops act on a flat byte array.** On every disk, for an extent inside the
device: the write loop replaces exactly the bytes it is given, `zero_range` exactly the bytes
of its range, and the read loop returns exactly the bytes asked for; no sector outside the
extent changes. As many rounds as there are bytes are enough, whatever the alignment. -/
theorem sectorLoops_flat {size : Nat} (d : Disk) (hsize : size < wordSize)
    (hextent : start + count ≤ size) :
    (∀ fuel offset (data : List UInt8), data.length ≤ fuel →
      offset + data.length ≤ SECTOR_SIZE * count →
      ∃ d', evaluate size .outOfRange (overlay start fuel offset data) d = (.ok (), d') ∧
        extentBytes d' start count = (extentBytes d start count).take offset ++ data ++
          (extentBytes d start count).drop (offset + data.length) ∧
        ∀ sector, ¬ (start ≤ sector ∧ sector < start + count) → d' sector = d sector) ∧
    (∀ (entry : DiskInode) first stop, entry.startSector.toNat = start → first ≤ stop →
      stop ≤ SECTOR_SIZE * count →
      ∃ d', evaluate size .outOfRange (zeroRange entry first stop) d = (.ok (), d') ∧
        extentBytes d' start count = (extentBytes d start count).take first ++
          List.replicate (stop - first) 0 ++ (extentBytes d start count).drop stop ∧
        ∀ sector, ¬ (start ≤ sector ∧ sector < start + count) → d' sector = d sector) ∧
    (∀ fuel offset total, total ≤ fuel → offset + total ≤ SECTOR_SIZE * count →
      evaluate size .outOfRange (readLoop start fuel offset total) d =
        (.ok (((extentBytes d start count).drop offset).take total), d)) := by
  have h : InDevice (Env.perfect size BlockError.outOfRange) start count := ⟨hsize, fun _ => hextent⟩
  refine ⟨fun fuel offset data hfuel hfit => ?_, fun entry first stop hentry hle hfit => ?_,
    fun fuel offset total hfuel hfit => ?_⟩
  · obtain ⟨hbytes, hframe⟩ := extentBytes_patch d start hfit
    exact ⟨_, (overlay_runs h fuel hfuel hfit fun _ => trivial).evaluate, hbytes, hframe⟩
  · have hlength : (List.replicate (stop - first) (0 : UInt8)).length = stop - first :=
      List.length_replicate
    obtain ⟨hbytes, hframe⟩ := extentBytes_patch d start
      (show first + (List.replicate (stop - first) 0).length ≤ SECTOR_SIZE * count by omega)
    rw [hlength, Nat.add_sub_cancel' hle] at hbytes
    subst hentry
    exact ⟨_, (zeroRange_runs h hfit fun _ => trivial).evaluate, hbytes, hframe⟩
  · obtain ⟨k, hreads⟩ := readLoop_reads h (d := d) trivial fuel hfuel hfit
    rw [(hreads.runs trivial).evaluate]
    unfold extentBytes
    rw [take_drop_flatBytes, Nat.min_eq_left (by omega)]

/-- Three bytes across a sector boundary. -/
theorem sectorLoops_flat_across : ∃ d',
    evaluate 19 .outOfRange (overlay 17 3 510 [1, 2, 3]) (fun _ => zeroSector) = (.ok (), d') ∧
    extentBytes d' 17 2 = (extentBytes (fun _ => zeroSector) 17 2).take 510 ++ [1, 2, 3] ++
      (extentBytes (fun _ => zeroSector) 17 2).drop 513 := by
  obtain ⟨hwrite, _⟩ := @sectorLoops_flat 17 2 19 (fun _ => zeroSector) (lt_wordSize (by decide))
    (by decide)
  obtain ⟨d', heval, hbytes, _⟩ := hwrite 3 510 [1, 2, 3] (le_refl _) (by decide)
  exact ⟨d', heval, hbytes⟩

end GenericKernel.Fs
