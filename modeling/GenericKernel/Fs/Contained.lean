import GenericKernel.Fs.Accesses
import GenericKernel.Fs.Remount
import GenericKernel.Lib.Transition

/-!
# File I/O on untrusted images

`mount` checks the superblock and the kind of the root; the extents and lengths of the
other records come from the disk unchecked. From any disk, a `read`, `write` or
`truncate` keeps its data accesses in the data area, or stops with `CorruptFilesystem`
at the end of the device, unless it starts below the data area or the number of its
first sector wraps (`FileOp.Aimed`, `run_contained`). A record that points below the
data area lets file data overwrite the superblock (`image_overwrites_superblock`).
-/

namespace GenericKernel.Fs

open GenericKernel.Lib

/-- The calls that access file data. -/
inductive FileOp
  | read (inode offset bufferLen : Nat)
  | write (inode offset : Nat) (data : List UInt8)
  | truncate (inode len : Nat)

/-- A data access in the data area, whose sector number is a sum that does not wrap. -/
def InData (sectors : Nat) (x : Access Purpose) : Prop :=
  ∀ start index, x.label = .extent start index →
    x.block = start + index ∧ DATA_START ≤ x.block ∧ x.block < sectors

/-- Every access for file data is in the data area, or it misses the device and the
operation returns `CorruptFilesystem`. -/
def Contained {α : Type} (sectors : Nat) (p : FsProg α) (d : Disk) : Prop :=
  ∀ x ∈ accesses sectors .outOfRange p d, InData sectors x ∨
    sectors ≤ x.block ∧ (evaluate sectors .outOfRange p d).1 = .error .corruptFilesystem

/-- The first sector of a loop misses the device, or is in the data area without
wrapping. -/
def Aimed (sectors start position : Nat) : Prop :=
  sectors ≤ wrappingAdd start (position / SECTOR_SIZE) ∨
    DATA_START ≤ start + position / SECTOR_SIZE ∧ start + position / SECTOR_SIZE < wordSize

/-- What must be so for `write` and `truncate` up to byte `stop`, with data (if any) from
`offset` on: the loops over the file's own extent are aimed, and a file that is to be
copied lies in the data area. -/
def StoreAimed (sectors : Nat) (d : Disk) (inode offset stop : Nat) : Prop :=
  stop < wordSize → InTable inode → ∀ e, record d inode = .ok e → e.kind = 1 →
    (sectorsForLen stop ≤ e.sectors → min e.len.toNat offset < stop →
      Aimed sectors e.first (min e.len.toNat offset)) ∧
    (e.sectors < sectorsForLen stop → 0 < e.sectors →
      (∃ a, Finds sectors d inode (sectorsForLen stop) a ∧ a + sectorsForLen stop ≤ sectors) →
      DATA_START ≤ e.first)

namespace FileOp

def Result : FileOp → Type
  | read _ _ _ => List UInt8
  | write _ _ _ => Nat
  | truncate _ _ => Unit

def prog (sectors : Nat) : (op : FileOp) → FsProg op.Result
  | read inode offset bufferLen => Fs.read inode offset bufferLen
  | write inode offset data => Fs.write sectors inode offset data
  | truncate inode len => Fs.truncate sectors inode len

/-- The length is a `usize`. -/
def Typed : FileOp → Prop
  | truncate _ len => len < wordSize
  | _ => True

/-- The record of the file, as it is on disk, aims the operation's loops at the data
area or past the device. -/
def Aimed (sectors : Nat) (d : Disk) : FileOp → Prop
  | read inode offset bufferLen => InTable inode → ∀ e, record d inode = .ok e → e.kind = 1 →
      offset < e.len.toNat → 0 < bufferLen → Fs.Aimed sectors e.first offset
  | write inode offset data => StoreAimed sectors d inode offset (offset + data.length)
  | truncate inode len => StoreAimed sectors d inode len len

end FileOp

section Operations

variable {sectors : Nat} {d : Disk} {inode : Nat}

theorem permits_inData (sectors : Nat) :
    Permits sectors (InData sectors) (fun e => e = .corruptFilesystem) where
  reads _ _ _ h := nomatch h
  misses _ h := .inr ⟨h, rfl⟩

theorem contained_of_guarded {α : Type} {p : FsProg α} {R : α → Disk → Prop}
    (h : Guarded sectors .outOfRange (InData sectors) (fun e => e = .corruptFilesystem) p d R) :
    Contained sectors p d := by
  intro x hx
  rcases h.permitted x hx with hP | ⟨hmiss, e, rfl, he⟩
  · exact .inl hP
  · exact .inr ⟨hmiss, he⟩

theorem Aimed.starts {start position : Nat} (h : Aimed sectors start position) :
    Starts sectors start position := h.imp id fun h => h.2

/-- Permission for a sector that a loop reaches. -/
theorem inData_of_le {start index : Nat} {writes : Bool} (hlow : DATA_START ≤ start + index)
    (hlt : start + index < sectors) :
    InData sectors ⟨.extent start index, writes, start + index⟩ := by
  intro start' index' hlabel
  obtain ⟨rfl, rfl⟩ := Purpose.extent.inj hlabel
  exact ⟨rfl, hlow, hlt⟩

theorem Aimed.inData {start position index : Nat} {writes : Bool}
    (h : Aimed sectors start position) (hsize : sectors < wordSize)
    (hle : position / SECTOR_SIZE ≤ index) (hlt : start + index < sectors) :
    InData sectors ⟨.extent start index, writes, start + index⟩ := by
  refine inData_of_le ?_ hlt
  rcases h with hmiss | ⟨hlow, _⟩
  · rw [wrappingAdd_of_lt (by omega)] at hmiss
    omega
  · omega

theorem read_contained (hsize : sectors < wordSize) {offset bufferLen : Nat}
    (h : FileOp.Aimed sectors d (.read inode offset bufferLen)) :
    Contained sectors (read inode offset bufferLen) d := by
  refine contained_of_guarded (R := fun _ _ => True) ?_
  unfold read
  refine (openFile_guarded (permits_inData sectors) inode).bind ?_
  rintro e d' ⟨rfl, hin, he, hkind⟩
  by_cases hpast : e.len.toNat ≤ offset
  · rw [if_pos hpast]
    exact Guarded.pure trivial
  · rw [if_neg hpast]
    by_cases hnone : bufferLen = 0
    · rw [hnone, Nat.zero_min]
      exact Guarded.pure trivial
    · have haimed := h hin e he hkind (Nat.not_le.mp hpast) (Nat.pos_of_ne_zero hnone)
      exact readLoop_guarded (permits_inData sectors) hsize _ (fun _ => haimed.starts)
        fun index hle hlt => haimed.inData hsize hle hlt

theorem Aimed.cleared {offset stop : Nat} {e : DiskInode} (hsize : sectors < wordSize)
    (h : min e.len.toNat offset < stop → Aimed sectors e.first (min e.len.toNat offset)) :
    Cleared sectors (InData sectors) offset stop e where
  starts hsome := (h hsome).starts
  permits hsome _ _ hindex _ hlt := (h hsome).inData hsize hindex hlt

/-- After `ensure_capacity` the loops are aimed. -/
theorem ensureCapacity_aimed (hsize : sectors < wordSize) {offset stop : Nat} {e : DiskInode}
    (hstop : stop < wordSize) (hin : InTable inode) (he : record d inode = .ok e)
    (hkind : e.kind = 1) (h : StoreAimed sectors d inode offset stop) :
    Guarded sectors .outOfRange (InData sectors) (fun e => e = .corruptFilesystem)
      (ensureCapacity sectors inode e (sectorsForLen stop)) d
      (fun e' _ => Cleared sectors (InData sectors) offset stop e') := by
  obtain ⟨hstay, hmove⟩ := h hstop hin e he hkind
  refine (ensureCapacity_guarded (permits_inData sectors) hsize ?_ ?_).conseq ?_
  · intro hless a ha i _ hlt
    have := (ha.bounds (by omega)).1
    exact inData_of_le (by omega) hlt
  · intro hless a ha hfit i hi hlt
    have := hmove hless (by omega) ⟨a, ha, hfit⟩
    exact inData_of_le (by omega) hlt
  · rintro e' d' (⟨hfits, rfl, rfl⟩ | ⟨hless, a, ha, hfit, hsmall, rfl⟩)
    · exact Aimed.cleared hsize (hstay hfits)
    · refine Aimed.cleared hsize fun hsome => .inr ?_
      have hlow := (ha.bounds (by omega)).1
      have hfirst : (relocated e a (sectorsForLen stop)).first = a := by
        refine UInt64.toNat_ofNat_of_lt' ?_
        rw [wordSize] at hsize
        show a < 2 ^ 64
        omega
      -- a file that grows is not rounded up to zero sectors
      have hroom : stop ≤ SECTOR_SIZE * sectorsForLen stop := by
        by_cases hrange : stop + SECTOR_SIZE - 1 < wordSize
        · exact (sectorsForLen_spec hrange).1
        · have := (sectorsForLen_eq_zero hstop).mpr (.inr (Nat.not_lt.mp hrange))
          omega
      have hsector : SECTOR_SIZE = 512 := rfl
      rw [hfirst]
      rw [hsector] at hroom ⊢
      omega

theorem write_contained (hsize : sectors < wordSize) {offset : Nat} {data : List UInt8}
    (h : FileOp.Aimed sectors d (.write inode offset data)) :
    Contained sectors (write sectors inode offset data) d :=
  contained_of_guarded (write_guarded (permits_inData sectors) hsize
    (fun _ _ hlabel => nomatch hlabel)
    fun hstop hin _ he hkind => ensureCapacity_aimed hsize hstop hin he hkind h)

theorem truncate_contained (hsize : sectors < wordSize) {len : Nat} (hlen : len < wordSize)
    (h : FileOp.Aimed sectors d (.truncate inode len)) :
    Contained sectors (truncate sectors inode len) d :=
  contained_of_guarded (truncate_guarded (permits_inData sectors) hsize
    (fun _ _ hlabel => nomatch hlabel)
    fun hin _ he hkind => ensureCapacity_aimed hsize hlen hin he hkind h)

end Operations

/-- The disk after a call, on a device without faults. -/
def fileStep (sectors : Nat) (d : Disk) (op : FileOp) : Option Disk :=
  some (evaluate sectors .outOfRange (op.prog sectors) d).2

/-- **File I/O stays in the data area**: from every disk, accepted by `mount` or not, in
every sequence of calls that are aimed when they are made. -/
theorem run_contained {sectors : Nat} {d : Disk} {ops : List FileOp} (hsize : sectors < wordSize)
    (htyped : ∀ op ∈ ops, op.Typed)
    (haimed : Along (fileStep sectors) (fun d op => op.Aimed sectors d) d ops) :
    Along (fileStep sectors) (fun d op => Contained sectors (op.prog sectors) d) d ops := by
  refine haimed.mono fun d op hop hd => ?_
  cases op with
  | read inode offset bufferLen => exact read_contained hsize hd
  | write inode offset data => exact write_contained hsize hd
  | truncate inode len => exact truncate_contained hsize (htyped _ hop) hd

/-- A fresh filesystem on 32 sectors, with this record for inode 2. -/
def imageWith (e : DiskInode) : Disk := putRecord (formatted 32 fun _ => zeroSector) 2 e

section Image

variable {e : DiskInode}

theorem imageWith_shows (he : e.Storable) :
    Shows (imageWith e) (Function.update blankTable 2 e) := by
  have hword : 32 < wordSize := lt_wordSize (by decide)
  exact (formatted_consistent (by decide) hword _).shows.put ⟨by decide, by decide⟩ he

/-- `mount` accepts it, whatever the record. -/
theorem imageWith_mount (he : e.Storable) :
    evaluate 32 .outOfRange (mount 32 false) (imageWith e) = (.ok false, imageWith e) := by
  have hword : 32 < wordSize := lt_wordSize (by decide)
  refine mount_evaluate_of_superblock (by decide) hword ?_
    (imageWith_shows he 1 ⟨le_refl 1, by decide⟩) rfl false
  exact (putRecord_outside _ _ ⟨by decide, by decide⟩ (.inl rfl)).trans
    (formatted_consistent (by decide) hword _).superblock

theorem imageWith_openFile (he : e.Storable) (hkind : e.kind = 1) :
    evaluate 32 .outOfRange (openFile 2) (imageWith e) = (.ok e, imageWith e) := by
  rcases openFile_reads (E := perfect 32) (d := imageWith e) trivial (by decide)
    (imageWith_shows he) (show DiskInode.root.kind ≠ 1 by decide) 2 with ⟨_, _, k, hreads⟩ | ⟨hnot, _⟩
  · have heval := (hreads.runs trivial).evaluate
    rw [Function.update_self] at heval
    exact heval
  · refine absurd ⟨mem_inodeNumbers.mpr ⟨le_refl 2, by decide⟩, ?_⟩ hnot
    rw [Function.update_self]
    exact hkind

end Image

/-- A record whose extent lies past the device. -/
def farEntry : DiskInode :=
  { newEntry 1 "f" 1 with len := 1, startSector := 4096, sectorCount := 1 }

theorem farEntry_storable : farEntry.Storable :=
  @newEntry_storable 1 _ 1 validName_f (by decide)

/-- An image whose only file has its extent behind the end of the 32 sectors mounts, and a read of
that file is contained. -/
theorem run_contained_farEntry :
    evaluate 32 .outOfRange (mount 32 false) (imageWith farEntry) =
      (.ok false, imageWith farEntry) ∧
    Along (fileStep 32) (fun d op => Contained 32 (op.prog 32) d) (imageWith farEntry)
      [.read 2 0 1] := by
  have hword : 32 < wordSize := lt_wordSize (by decide)
  refine ⟨imageWith_mount farEntry_storable, run_contained hword (fun op hop => ?_)
    ⟨fun _ e he _ _ _ => .inl ?_, fun _ _ => trivial⟩⟩
  · rw [List.mem_singleton.mp hop]
    trivial
  · rw [imageWith_shows farEntry_storable 2 ⟨by decide, by decide⟩, Function.update_self] at he
    rw [← Except.ok.inj he, wrappingAdd, wordSize]
    decide

/-- A record whose extent starts at sector 0. -/
def strayEntry : DiskInode := { newEntry 1 "f" 1 with sectorCount := 1 }

theorem strayEntry_storable : strayEntry.Storable :=
  @newEntry_storable 1 _ 1 validName_f (by decide)

/-- `mount` accepts it, and writing to that file writes sector 0, the superblock. -/
theorem image_overwrites_superblock :
    evaluate 32 .outOfRange (mount 32 false) (imageWith strayEntry) =
      (.ok false, imageWith strayEntry) ∧
    ¬ Contained 32 ((FileOp.write 2 0 [5]).prog 32) (imageWith strayEntry) := by
  refine ⟨imageWith_mount strayEntry_storable, fun hcontained => ?_⟩
  have hmem : (⟨.extent 0 0, true, 0⟩ : Access Purpose) ∈
      accesses 32 .outOfRange (write 32 2 0 [5]) (imageWith strayEntry) := by
    have hword : 0 + [(5 : UInt8)].length + SECTOR_SIZE - 1 < wordSize := lt_wordSize (by decide)
    have hneeded : sectorsForLen (0 + [(5 : UInt8)].length) = 1 := sectorsForLen_eq hword
    have hstop : checkedAdd 0 [(5 : UInt8)].length = some (0 + [(5 : UInt8)].length) :=
      if_pos (lt_of_le_of_lt (by decide) hword)
    unfold write
    refine mem_accesses_right (imageWith_openFile strayEntry_storable rfl) ?_
    rw [hstop]
    dsimp only
    rw [hneeded]
    -- the extent is large enough and there is no gap: the loop of `write` is next
    refine @mem_accesses_right _ _ _ _ _ _ _ _ _ (imageWith strayEntry) _ _ _ strayEntry rfl ?_
    refine @mem_accesses_right _ _ _ _ _ _ _ _ _ (imageWith strayEntry) _ _ _ () rfl
      (mem_accesses_left ?_)
    exact @overlay_writes 32 0 (lt_wordSize (by decide)) 0 (by decide) 1 _ _ _
      (le_refl 1) (by decide) (by decide) (by decide)
  rcases hcontained _ hmem with hin | ⟨hmiss, _⟩
  · exact absurd (hin 0 0 rfl).2.1 (by decide)
  · exact absurd hmiss (by decide)

end GenericKernel.Fs
