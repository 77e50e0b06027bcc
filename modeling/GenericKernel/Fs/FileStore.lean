import GenericKernel.Fs.Extents
import GenericKernel.Fs.SectorLoops

/-!
# Files in their extents

`Layout` says how the extents of a table lie on the device. From a disk that shows
such a table:

* `ensure_capacity` keeps the extent, finds no room, or moves the file to the
  least free run (`Capacity`, `ensureCapacity_runs`). Moving zeroes the new run
  before it copies (`relocate`), also where the new run covers the old extent;
* `write` and `truncate` extend the file with zeros, put their data and commit
  the inode (`Stored`, `write_runs`, `truncate_runs`);
* until the commit they touch sectors only that no other file owns (`Private`).
-/

namespace GenericKernel.Fs

open GenericKernel.Lib

/-- Extents lie in the data area, apart from each other, and hold their files;
directories have none. -/
structure Layout (sectors : Nat) (T : Table) : Prop where
  inside : ∀ i ∈ inodeNumbers, (T i).HasExtent →
    DATA_START ≤ (T i).first ∧ (T i).first + (T i).sectors ≤ sectors
  apart : ∀ i ∈ inodeNumbers, ∀ j ∈ inodeNumbers, i ≠ j → (T i).HasExtent → (T j).HasExtent →
    (T i).first + (T i).sectors ≤ (T j).first ∨ (T j).first + (T j).sectors ≤ (T i).first
  holds : ∀ i ∈ inodeNumbers, (T i).kind = 1 → (T i).len.toNat ≤ SECTOR_SIZE * (T i).sectors
  directory : ∀ i, InTable i → (T i).kind = 2 → (T i).sectorCount = 0

/-- A sector of the data area that no other file owns. -/
def Private (T : Table) (inode s : Nat) : Prop :=
  DATA_START ≤ s ∧ ∀ j ∈ inodeNumbers, j ≠ inode → (T j).HasExtent →
    s < (T j).first ∨ (T j).first + (T j).sectors ≤ s

variable {sectors a needed len : Nat}

theorem FreeRun.isPrivate {count inode : Nat} {T : Table} (h : FreeRun sectors T inode count a) :
    ∀ s, a ≤ s → s < a + count → Private T inode s := by
  intro s hs hs'
  refine ⟨le_trans h.low hs, fun j hj hne hextent => ?_⟩
  have := h.free j hj hne hextent
  omega

/-- A file's own extent is free of the other files. -/
theorem Layout.freeRun {inode : Nat} {T : Table} (h : Layout sectors T) (hi : inode ∈ inodeNumbers)
    (hextent : (T inode).HasExtent) :
    FreeRun sectors T inode (T inode).sectors (T inode).first where
  low := (h.inside inode hi hextent).1
  high := (h.inside inode hi hextent).2
  free j hj hne hextent' := h.apart inode hi j hj (Ne.symm hne) hextent hextent'

theorem Layout.extentsIn {T : Table} (h : Layout sectors T) :
    ExtentsIn sectors T := fun i hi hextent => (h.inside i hi hextent).2

/-- A device that holds the table `T`. -/
structure Mounted (E : Env Sector BlockError) (d : Disk) (T : Table) : Prop where
  low : DATA_START ≤ E.size
  size : E.size < wordSize
  shows : Shows d T
  layout : Layout E.size T

/-! ## Growing -/

/-- The disk after the two loops of `ensure_capacity`. -/
def relocate (d : Disk) (e : DiskInode) (a needed : Nat) : Disk :=
  copyBlocks (fillBlocks d a needed zeroSector) e.first a e.sectors

/-- The entry `ensure_capacity` returns. -/
def relocated (e : DiskInode) (a needed : Nat) : DiskInode :=
  { e with startSector := UInt64.ofNat a, sectorCount := UInt32.ofNat needed }

/-- What `ensure_capacity` returns, and the disk it leaves. -/
inductive Capacity (sectors : Nat) (d : Disk) (T : Table) (inode needed : Nat) :
    Except VfsError DiskInode → Disk → Prop
  | fits : needed ≤ (T inode).sectors → Capacity sectors d T inode needed (.ok (T inode)) d
  | full : (T inode).sectors < needed → (∀ a, ¬ FreeRun sectors T inode needed a) →
      Capacity sectors d T inode needed (.error .noSpace) d
  | moved {a : Nat} : (T inode).sectors < needed → needed < 2 ^ 32 →
      IsLeast {a | FreeRun sectors T inode needed a} a →
      Capacity sectors d T inode needed (.ok (relocated (T inode) a needed))
        (relocate d (T inode) a needed)
  | tooLarge {a : Nat} : (T inode).sectors < needed → 2 ^ 32 ≤ needed →
      IsLeast {a | FreeRun sectors T inode needed a} a →
      Capacity sectors d T inode needed (.error .noSpace) (relocate d (T inode) a needed)

section File

variable {E : Env Sector BlockError} {d : Disk} {T : Table} {inode : Nat}

/-- A file that owns sectors has an extent. -/
theorem hasExtent_of_pos (hkind : (T inode).kind = 1) (hpos : 0 < (T inode).sectors) :
    (T inode).HasExtent := by
  refine ⟨hkind, fun hzero => ?_⟩
  rw [DiskInode.sectors, hzero] at hpos
  exact absurd hpos (by decide)

theorem Mounted.inDevice (h : Mounted E d T) (hi : inode ∈ inodeNumbers)
    (hkind : (T inode).kind = 1) : InDevice E (T inode).first (T inode).sectors where
  size := h.size
  stop hpos := (h.layout.inside inode hi (hasExtent_of_pos hkind hpos)).2

theorem FreeRun.inDevice (h : Mounted E d T) {count : Nat} (ha : FreeRun E.size T inode count a) :
    InDevice E a count :=
  ⟨h.size, fun _ => ha.high⟩

/-- Zeroing and copying stay in the new run. -/
theorem relocate_differsIn {needed a : Nat} (hless : (T inode).sectors < needed)
    (ha : FreeRun E.size T inode needed a) :
    DiffersIn (Private T inode) d (relocate d (T inode) a needed) :=
  (fillBlocks_differsIn ha.isPrivate _).trans
    (copyBlocks_differsIn (fun s hs hs' => ha.isPrivate s hs (by omega)) _)

/-- The two loops move the file to the least free run. -/
theorem relocate_runs (h : Mounted E d T) (hi : inode ∈ inodeNumbers) (hkind : (T inode).kind = 1)
    (hless : (T inode).sectors < needed) (ha : IsLeast {a | FreeRun E.size T inode needed a} a)
    (hdirty : ∀ d', DiffersIn (Private T inode) d d' → E.inv d') {β : Type} {rest : FsProg β}
    {r : Except VfsError β}
    (hrest : Runs E rest (relocate d (T inode) a needed) r (relocate d (T inode) a needed)) :
    Runs E (do
      forRange (fun sector => writeExtent a sector zeroSector) needed
      forRange (fun sector => do
        let buffer ← readExtent (T inode).startSector.toNat sector
        writeExtent a sector buffer) (T inode).sectorCount.toNat
      rest) d r (relocate d (T inode) a needed) := by
  have hrun : FreeRun E.size T inode needed a := ha.1
  have hdevice := hrun.inDevice h
  have hzero := @zeroLoop_runs _ _ _ hdevice d fun i hle =>
    hdirty _ (fillBlocks_differsIn (fun s hs hs' => hrun.isPrivate s hs (by omega)) _)
  have happart : a ≤ (T inode).first ∨ (T inode).first + (T inode).sectors ≤ a := by
    rcases Nat.eq_zero_or_pos (T inode).sectors with hnone | hpos
    · rw [hnone, Nat.add_zero]
      exact le_total _ _
    · have hown := h.layout.freeRun hi (hasExtent_of_pos hkind hpos)
      exact least_freeRun_before_or_past ha hown.low hown.free
  have hcopy := copyLoop_runs
    (show InDevice E a (T inode).sectors from
      ⟨h.size, fun _ => by have := hrun.high; omega⟩)
    (h.inDevice hi hkind) happart (d := fillBlocks d a needed zeroSector) fun i hle =>
      hdirty _ ((fillBlocks_differsIn hrun.isPrivate _).trans
        (copyBlocks_differsIn (fun s hs hs' => hrun.isPrivate s hs (by omega)) _))
  exact hzero.bind (hcopy.bind hrest)

/-- **`ensure_capacity`**, on paper. -/
theorem ensureCapacity_runs (h : Mounted E d T) (hi : inode ∈ inodeNumbers)
    (hkind : (T inode).kind = 1) (hneeded : needed ≤ 2 ^ 55)
    (hdirty : ∀ d', DiffersIn (Private T inode) d d' → E.inv d') :
    ∃ r d', Capacity E.size d T inode needed r d' ∧
      Runs E (ensureCapacity E.size inode (T inode) needed) d r d' := by
  have hd := hdirty d (DiffersIn.refl _ d)
  unfold ensureCapacity
  by_cases hfits : needed ≤ (T inode).sectorCount.toNat
  · rw [if_pos hfits]
    exact ⟨_, _, .fits hfits, Runs.pure _⟩
  rw [if_neg hfits]
  have hless : (T inode).sectors < needed := Nat.not_le.mp hfits
  obtain ⟨k, hfind⟩ := findExtent_reads hd h.low h.shows E.size needed inode
  have hspec := findExtentTable_spec h.size h.layout.extentsIn inode
    (show 0 < needed by omega) hneeded
  cases hresult : findExtentTable E.size T needed inode with
  | error e =>
      rw [hresult] at hfind hspec
      obtain ⟨rfl, hnone⟩ := hspec
      exact ⟨_, _, .full hless hnone, (hfind.runs hd).bind_error⟩
  | ok a =>
      rw [hresult] at hfind hspec
      by_cases hlarge : needed < 2 ^ 32
      · refine ⟨_, _, .moved hless hlarge hspec, (hfind.runs hd).bind ?_⟩
        refine relocate_runs h hi hkind hless hspec hdirty ?_
        rw [if_pos hlarge]
        exact Runs.pure _
      · refine ⟨_, _, .tooLarge hless (Nat.not_lt.mp hlarge) hspec, (hfind.runs hd).bind ?_⟩
        refine relocate_runs h hi hkind hless hspec hdirty ?_
        rw [if_neg hlarge]
        exact Runs.throw _

theorem relocated_first (hn : sectors < wordSize) (ha : FreeRun sectors T inode needed a)
    (e : DiskInode) : (relocated e a needed).first = a := by
  refine UInt64.toNat_ofNat_of_lt' ?_
  have := ha.high
  rw [wordSize] at hn
  show a < 2 ^ 64
  omega

/-- The entry a successful `ensure_capacity` returns: the same file, in an extent
with the room asked for. -/
structure Housed (sectors : Nat) (T : Table) (inode needed : Nat) (e : DiskInode) : Prop where
  same : ∃ start count, e = { T inode with startSector := start, sectorCount := count }
  room : needed ≤ e.sectors
  grows : (T inode).sectors ≤ e.sectors
  free : 0 < e.sectors → FreeRun sectors T inode e.sectors e.first

theorem Capacity.housed {d₁ : Disk} {e : DiskInode} (hn : sectors < wordSize)
    (hL : Layout sectors T) (hi : inode ∈ inodeNumbers) (hkind : (T inode).kind = 1)
    (h : Capacity sectors d T inode needed (.ok e) d₁) : Housed sectors T inode needed e := by
  cases h with
  | fits hfits =>
      exact ⟨⟨_, _, rfl⟩, hfits, le_refl _,
        fun hpos => hL.freeRun hi (hasExtent_of_pos hkind hpos)⟩
  | @moved a hless hsmall ha =>
      have hrun : FreeRun sectors T inode needed a := ha.1
      have hsectors : (relocated (T inode) a needed).sectors = needed :=
        UInt32.toNat_ofNat_of_lt' hsmall
      have hfirst := relocated_first hn hrun (T inode)
      refine ⟨⟨_, _, rfl⟩, le_of_eq hsectors.symm, by omega, fun _ => ?_⟩
      rw [hsectors, hfirst]
      exact hrun

theorem Capacity.differsIn {needed : Nat} {r : Except VfsError DiskInode} {d₁ : Disk}
    (h : Capacity E.size d T inode needed r d₁) : DiffersIn (Private T inode) d d₁ := by
  cases h with
  | fits _ => exact DiffersIn.refl _ d
  | full _ _ => exact DiffersIn.refl _ d
  | moved hless _ ha => exact relocate_differsIn hless ha.1
  | tooLarge hless _ ha => exact relocate_differsIn hless ha.1

/-- The outcome is determined by the disk. -/
theorem Capacity.unique {r r' : Except VfsError DiskInode} {d₁ d₂ : Disk}
    (h : Capacity sectors d T inode needed r d₁) (h' : Capacity sectors d T inode needed r' d₂) :
    r = r' ∧ d₁ = d₂ := by
  cases h with
  | fits hfits =>
      cases h' with
      | fits _ => exact ⟨rfl, rfl⟩
      | full hless _ => omega
      | moved hless _ _ => omega
      | tooLarge hless _ _ => omega
  | full hless hnone =>
      cases h' with
      | fits hfits => omega
      | full _ _ => exact ⟨rfl, rfl⟩
      | moved _ _ ha => exact absurd ha.1 (hnone _)
      | tooLarge _ _ ha => exact absurd ha.1 (hnone _)
  | moved hless hsmall ha =>
      cases h' with
      | fits hfits => omega
      | full _ hnone => exact absurd ha.1 (hnone _)
      | moved _ _ ha' => rw [ha.unique ha']; exact ⟨rfl, rfl⟩
      | tooLarge _ hlarge _ => omega
  | tooLarge hless hlarge ha =>
      cases h' with
      | fits hfits => omega
      | full _ hnone => exact absurd ha.1 (hnone _)
      | moved _ hsmall _ => omega
      | tooLarge _ _ ha' => rw [ha.unique ha']; exact ⟨rfl, rfl⟩

theorem Housed.inDevice {e : DiskInode} (hsize : E.size < wordSize)
    (h : Housed E.size T inode needed e) : InDevice E e.first e.sectors :=
  ⟨hsize, fun hpos => (h.free hpos).high⟩

theorem Housed.isPrivate {e : DiskInode} (h : Housed E.size T inode needed e) :
    ∀ s, e.first ≤ s → s < e.first + e.sectors → Private T inode s := by
  intro s hs hs'
  exact (h.free (by omega)).isPrivate s hs hs'

/-- Committing the entry keeps the layout. -/
theorem Layout.put {e : DiskInode} {newLen : UInt64} (hL : Layout sectors T)
    (hkind : (T inode).kind = 1) (h : Housed sectors T inode needed e)
    (hlen : newLen.toNat ≤ SECTOR_SIZE * e.sectors) :
    Layout sectors (Function.update T inode { e with len := newLen }) := by
  obtain ⟨start, count, hsame⟩ := h.same
  have hekind : e.kind = 1 := by
    rw [hsame]
    exact hkind
  -- the file's run is apart from every other file, whichever of the two comes first
  have hfree : ∀ j ∈ inodeNumbers, j ≠ inode → e.sectorCount ≠ 0 → (T j).HasExtent →
      e.first + e.sectors ≤ (T j).first ∨ (T j).first + (T j).sectors ≤ e.first :=
    fun j hj hne hcount hextent => (h.free (DiskInode.HasExtent.sectors_pos ⟨hekind, hcount⟩)).free
      j hj hne hextent
  refine ⟨fun i hi => ?_, fun i hi j hj hne => ?_, fun i hi => ?_, fun i hi => ?_⟩
  · by_cases heq : i = inode
    · subst heq
      rw [Function.update_self]
      intro hextent
      have hrun := h.free (DiskInode.HasExtent.sectors_pos (e := e) hextent)
      exact ⟨hrun.low, hrun.high⟩
    · rw [Function.update_of_ne heq]
      exact hL.inside i hi
  · by_cases hi' : i = inode
    · subst hi'
      rw [Function.update_self, Function.update_of_ne (Ne.symm hne)]
      exact fun hextent hextent' => hfree j hj (Ne.symm hne) hextent.2 hextent'
    · by_cases hj' : j = inode
      · subst hj'
        rw [Function.update_self, Function.update_of_ne hne]
        exact fun hextent hextent' => (hfree i hi hne hextent'.2 hextent).symm
      · rw [Function.update_of_ne hi', Function.update_of_ne hj']
        exact hL.apart i hi j hj hne
  · by_cases heq : i = inode
    · subst heq
      rw [Function.update_self]
      exact fun _ => hlen
    · rw [Function.update_of_ne heq]
      exact hL.holds i hi
  · by_cases heq : i = inode
    · subst heq
      rw [Function.update_self]
      intro hdir
      exact absurd (hekind.symm.trans hdir) (by decide)
    · rw [Function.update_of_ne heq]
      exact hL.directory i hi

end File

/-! ## Writing and truncating -/

theorem sectorsForLen_eq (h : len + SECTOR_SIZE - 1 < wordSize) :
    sectorsForLen len = (len + SECTOR_SIZE - 1) / SECTOR_SIZE := by
  unfold sectorsForLen
  by_cases hzero : len = 0
  · rw [if_pos hzero, hzero]
    rfl
  · rw [if_neg hzero, Nat.mod_eq_of_lt h]

theorem sectorsForLen_spec (h : len + SECTOR_SIZE - 1 < wordSize) :
    len ≤ SECTOR_SIZE * sectorsForLen len ∧ sectorsForLen len ≤ 2 ^ 55 ∧
      ∀ k, len ≤ SECTOR_SIZE * k → sectorsForLen len ≤ k := by
  have hsize : SECTOR_SIZE = 512 := rfl
  rw [sectorsForLen_eq h]
  rw [wordSize] at h
  rw [hsize] at h ⊢
  exact ⟨by omega, by omega, fun k hk => by omega⟩

theorem sectorsForLen_le (len : Nat) : sectorsForLen len ≤ 2 ^ 55 := by
  have hsize : SECTOR_SIZE = 512 := rfl
  unfold sectorsForLen
  by_cases hzero : len = 0
  · rw [if_pos hzero]
    exact Nat.zero_le _
  · rw [if_neg hzero, hsize]
    have := Nat.mod_lt (len + 512 - 1) wordSize_pos
    rw [wordSize] at this ⊢
    omega

/-- No sectors are asked for if the end is 0, or if rounding it up wraps. -/
theorem sectorsForLen_eq_zero (hlen : len < wordSize) :
    sectorsForLen len = 0 ↔ len = 0 ∨ wordSize ≤ len + SECTOR_SIZE - 1 := by
  have hsize : SECTOR_SIZE = 512 := rfl
  unfold sectorsForLen
  by_cases hzero : len = 0
  · rw [if_pos hzero]
    exact ⟨fun _ => .inl hzero, fun _ => rfl⟩
  · rw [if_neg hzero, hsize]
    by_cases hwrap : wordSize ≤ len + 512 - 1
    · rw [Nat.mod_eq_sub_mod hwrap, Nat.mod_eq_of_lt (by rw [wordSize] at hwrap hlen ⊢; omega)]
      rw [wordSize] at hwrap hlen ⊢
      exact ⟨fun _ => .inr hwrap, fun _ => by omega⟩
    · rw [Nat.mod_eq_of_lt (Nat.not_le.mp hwrap)]
      exact ⟨fun h => by omega, fun h => by omega⟩

/-- The disk after zeroing up to `offset` and putting `data` there. -/
def stored (d : Disk) (e : DiskInode) (offset : Nat) (data : List UInt8) : Disk :=
  patch (patch d e.first e.len.toNat (List.replicate (offset - e.len.toNat) 0)) e.first
    offset data

/-- What `write` (of `data`) and `truncate` (with no data) return, and the disk
they leave: there is no file, or no room for it, or the file has grown to the
room it needs, holds the data and its inode is committed. -/
inductive Stored {α : Type} (sectors : Nat) (d : Disk) (T : Table) (inode offset : Nat)
    (data : List UInt8) (newLen : UInt64) (value : α) : Except VfsError α → Disk → Prop
  | notFile {e : VfsError} : ¬ (inode ∈ inodeNumbers ∧ (T inode).kind = 1) →
      Stored sectors d T inode offset data newLen value (.error e) d
  | noRoom {e : VfsError} {d' : Disk} : inode ∈ inodeNumbers → (T inode).kind = 1 →
      Capacity sectors d T inode (sectorsForLen (offset + data.length)) (.error e) d' →
      Stored sectors d T inode offset data newLen value (.error e) d'
  | done {e : DiskInode} {d₁ : Disk} : inode ∈ inodeNumbers → (T inode).kind = 1 →
      Capacity sectors d T inode (sectorsForLen (offset + data.length)) (.ok e) d₁ →
      Stored sectors d T inode offset data newLen value (.ok value)
        (putRecord (stored d₁ e offset data) inode { e with len := newLen })

/-- Where there is room, the operation completes. -/
theorem Stored.done_of_capacity {α : Type} {inode offset : Nat} {d d₁ d' : Disk} {T : Table}
    {data : List UInt8} {newLen : UInt64} {value : α} {r : Except VfsError α} {e : DiskInode}
    (h : Stored sectors d T inode offset data newLen value r d') (hi : inode ∈ inodeNumbers)
    (hkind : (T inode).kind = 1)
    (hcapacity : Capacity sectors d T inode (sectorsForLen (offset + data.length)) (.ok e) d₁) :
    r = .ok value ∧ d' = putRecord (stored d₁ e offset data) inode { e with len := newLen } := by
  cases h with
  | notFile hnot => exact absurd ⟨hi, hkind⟩ hnot
  | noRoom _ _ hcapacity' => exact nomatch (hcapacity.unique hcapacity').1
  | done _ _ hcapacity' =>
      obtain ⟨he, rfl⟩ := hcapacity.unique hcapacity'
      rw [Except.ok.inj he]
      exact ⟨rfl, rfl⟩

section Store

variable {E : Env Sector BlockError} {d d₁ : Disk} {T : Table} {inode offset : Nat}
  {data : List UInt8} {e : DiskInode}

/-- The gap between the end of the file and `offset` is zeroed. -/
theorem extend_runs (hsize : E.size < wordSize) (h : Housed E.size T inode needed e)
    (hroom : offset ≤ SECTOR_SIZE * e.sectors) (hd₁ : DiffersIn (Private T inode) d d₁)
    (hdirty : ∀ d', DiffersIn (Private T inode) d d' → E.inv d') :
    Runs E (fillGap e offset) d₁ (.ok ())
      (patch d₁ e.first e.len.toNat (List.replicate (offset - e.len.toNat) 0)) := by
  unfold fillGap
  by_cases hgap : e.len.toNat < offset
  · rw [if_pos hgap]
    refine zeroRange_runs (h.inDevice hsize) hroom fun k => hdirty _ (hd₁.trans ?_)
    refine patch_differsIn h.isPrivate ?_
    rw [List.length_take, List.length_replicate]
    omega
  · rw [if_neg hgap, Nat.sub_eq_zero_of_le (Nat.not_lt.mp hgap), List.replicate_zero, patch_nil]
    exact Runs.pure ()

theorem extend_differsIn (h : Housed E.size T inode needed e)
    (hroom : offset ≤ SECTOR_SIZE * e.sectors) (hlen : e.len.toNat ≤ SECTOR_SIZE * e.sectors)
    (hd₁ : DiffersIn (Private T inode) d d₁) :
    DiffersIn (Private T inode) d
      (patch d₁ e.first e.len.toNat (List.replicate (offset - e.len.toNat) 0)) := by
  refine hd₁.trans (patch_differsIn h.isPrivate ?_)
  rw [List.length_replicate]
  omega

theorem stored_differsIn {needed : Nat} (h : Housed E.size T inode needed e)
    (hroom : offset + data.length ≤ SECTOR_SIZE * e.sectors)
    (hlen : e.len.toNat ≤ SECTOR_SIZE * e.sectors) (hd₁ : DiffersIn (Private T inode) d d₁) :
    DiffersIn (Private T inode) d (stored d₁ e offset data) :=
  (extend_differsIn h (by omega) hlen hd₁).trans (patch_differsIn h.isPrivate hroom)

/-- The data is put behind the gap. -/
theorem overlayData_runs (hsize : E.size < wordSize) (h : Housed E.size T inode needed e)
    (hroom : offset + data.length ≤ SECTOR_SIZE * e.sectors)
    (hlen : e.len.toNat ≤ SECTOR_SIZE * e.sectors) (hd₁ : DiffersIn (Private T inode) d d₁)
    (hdirty : ∀ d', DiffersIn (Private T inode) d d' → E.inv d') :
    Runs E (overlay e.startSector.toNat data.length offset data)
      (patch d₁ e.first e.len.toNat (List.replicate (offset - e.len.toNat) 0)) (.ok ())
      (stored d₁ e offset data) := by
  refine overlay_runs (h.inDevice hsize) _ (le_refl _) hroom fun k => hdirty _ ?_
  refine (extend_differsIn h (by omega) hlen hd₁).trans (patch_differsIn h.isPrivate ?_)
  rw [List.length_take]
  omega

end Store

section Operations

variable {E : Env Sector BlockError} {d : Disk} {T : Table} {inode offset : Nat}
  {data : List UInt8}

/-- A file's record is found; what is no file is refused. -/
theorem openFile_reads (hd : E.inv d) (hlow : DATA_START ≤ E.size) (hT : Shows d T)
    (hroot : (T 1).kind ≠ 1) (inode : Nat) :
    (inode ∈ inodeNumbers ∧ (T inode).kind = 1 ∧ ∃ k, Reads E k (openFile inode) d (.ok (T inode))) ∨
      ¬ (inode ∈ inodeNumbers ∧ (T inode).kind = 1) ∧
        ∃ k e, Reads E k (openFile inode) d (.error e) := by
  unfold openFile
  by_cases hin : InTable inode
  · have hread := readInode_reads hd hlow hin
    rw [hT inode hin] at hread
    by_cases hfile : (T inode).kind = 1
    · have hkind : (T inode).nodeKind = .ok .file := if_pos hfile
      refine .inl ⟨?_, hfile, 1, hread.bind (l := 0) ?_ rfl⟩
      · refine mem_inodeNumbers.mpr ⟨?_, hin.2⟩
        by_contra hlt
        obtain rfl : inode = 1 := by
          have := hin.1
          omega
        exact hroot hfile
      · rw [hkind]
        exact (Reads.ofExcept _).bind (Reads.pure _) rfl
    · refine .inr ⟨fun h => hfile h.2, ?_⟩
      by_cases hdir : (T inode).kind = 2
      · have hkind : (T inode).nodeKind = .ok .directory := by
          rw [DiskInode.nodeKind, if_neg hfile, if_pos hdir]
        refine ⟨1, .isDirectory, hread.bind (l := 0) ?_ rfl⟩
        rw [hkind]
        exact (Reads.ofExcept _).bind (Reads.throw _) rfl
      · have hkind : (T inode).nodeKind = .error .notFound := by
          rw [DiskInode.nodeKind, if_neg hfile, if_neg hdir]
        refine ⟨1, .notFound, hread.bind (l := 0) ?_ rfl⟩
        rw [hkind]
        exact (Reads.ofExcept _).bind_error
  · exact .inr ⟨fun h => hin (inTable_of_mem h.1), 0, .notFound,
      (readInode_notFound hin).bind_error⟩

theorem openFile_runs (h : Mounted E d T) (hd : E.inv d) (hroot : (T 1).kind = 2) (inode : Nat) :
    inode ∈ inodeNumbers ∧ (T inode).kind = 1 ∧ Runs E (openFile inode) d (.ok (T inode)) d ∨
      ¬ (inode ∈ inodeNumbers ∧ (T inode).kind = 1) ∧
        ∃ e, Runs E (openFile inode) d (.error e) d := by
  rcases openFile_reads hd h.low h.shows (by rw [hroot]; decide) inode with
    ⟨hi, hkind, k, hreads⟩ | ⟨hnot, k, e, hreads⟩
  · exact .inl ⟨hi, hkind, hreads.runs hd⟩
  · exact .inr ⟨hnot, e, hreads.runs hd⟩

/-- **`write`**, on paper. -/
theorem write_runs (h : Mounted E d T) (hroot : (T 1).kind = 2)
    (hrange : offset + data.length + SECTOR_SIZE - 1 < wordSize)
    (hdirty : ∀ d', DiffersIn (Private T inode) d d' → E.inv d')
    (hcommit : ∀ e d₁ d', inode ∈ inodeNumbers → (T inode).kind = 1 →
      Capacity E.size d T inode (sectorsForLen (offset + data.length)) (.ok e) d₁ →
      DiffersIn (Private T inode) d d' → E.inv (putRecord d' inode
        { e with len := max (T inode).len (UInt64.ofNat (offset + data.length)) })) :
    ∃ r d', Stored E.size d T inode offset data
        (max (T inode).len (UInt64.ofNat (offset + data.length))) data.length r d' ∧
      Runs E (write E.size inode offset data) d r d' := by
  have hd := hdirty d (DiffersIn.refl _ d)
  have hstop : checkedAdd offset data.length = some (offset + data.length) := by
    have : SECTOR_SIZE = 512 := rfl
    exact if_pos (by omega)
  unfold write
  rcases openFile_runs h hd hroot inode with ⟨hi, hkind, hopen⟩ | ⟨hnot, e, hfail⟩
  · obtain ⟨hfit, hneeded, _⟩ := sectorsForLen_spec hrange
    obtain ⟨r, d₁, hcapacity, hensure⟩ := ensureCapacity_runs h hi hkind hneeded hdirty
    have hd₁ := hcapacity.differsIn
    rw [hstop]
    cases r with
    | error e => exact ⟨_, _, .noRoom hi hkind hcapacity, hopen.bind hensure.bind_error⟩
    | ok e =>
        have hhoused := hcapacity.housed h.size h.layout hi hkind
        obtain ⟨start, count, hsame⟩ := hhoused.same
        have hlenEq : e.len = (T inode).len := by rw [hsame]
        have hroom : offset + data.length ≤ SECTOR_SIZE * e.sectors :=
          le_trans hfit (Nat.mul_le_mul_left _ hhoused.room)
        have hlen : e.len.toNat ≤ SECTOR_SIZE * e.sectors := by
          rw [hlenEq]
          exact le_trans (h.layout.holds inode hi hkind)
            (Nat.mul_le_mul_left _ hhoused.grows)
        have hput := stored_differsIn hhoused hroom hlen hd₁
        refine ⟨_, _, .done hi hkind hcapacity, hopen.bind (hensure.bind ?_)⟩
        refine (extend_runs h.size hhoused (by omega) hd₁ hdirty).bind ?_
        refine (overlayData_runs h.size hhoused hroom hlen hd₁ hdirty).bind ?_
        rw [hlenEq]
        exact (writeInode_runs (hdirty _ hput) h.low (inTable_of_mem hi)
          (hcommit e d₁ _ hi hkind hcapacity hput)).bind (Runs.pure _)
  · exact ⟨_, _, .notFile hnot, hfail.bind_error⟩

/-- **`truncate`**, on paper. -/
theorem truncate_runs {len : Nat} (h : Mounted E d T) (hroot : (T 1).kind = 2)
    (hrange : len + SECTOR_SIZE - 1 < wordSize)
    (hdirty : ∀ d', DiffersIn (Private T inode) d d' → E.inv d')
    (hcommit : ∀ e d₁ d', inode ∈ inodeNumbers → (T inode).kind = 1 →
      Capacity E.size d T inode (sectorsForLen len) (.ok e) d₁ →
      DiffersIn (Private T inode) d d' →
      E.inv (putRecord d' inode { e with len := UInt64.ofNat len })) :
    ∃ r d', Stored E.size d T inode len [] (UInt64.ofNat len) () r d' ∧
      Runs E (truncate E.size inode len) d r d' := by
  have hd := hdirty d (DiffersIn.refl _ d)
  unfold truncate
  rcases openFile_runs h hd hroot inode with ⟨hi, hkind, hopen⟩ | ⟨hnot, e, hfail⟩
  · obtain ⟨hfit, hneeded, _⟩ := sectorsForLen_spec hrange
    obtain ⟨r, d₁, hcapacity, hensure⟩ := ensureCapacity_runs h hi hkind hneeded hdirty
    have hd₁ := hcapacity.differsIn
    cases r with
    | error e => exact ⟨_, _, .noRoom hi hkind hcapacity, hopen.bind hensure.bind_error⟩
    | ok e =>
        have hhoused := hcapacity.housed h.size h.layout hi hkind
        obtain ⟨start, count, hsame⟩ := hhoused.same
        have hroom : len ≤ SECTOR_SIZE * e.sectors :=
          le_trans hfit (Nat.mul_le_mul_left _ hhoused.room)
        have hlen : e.len.toNat ≤ SECTOR_SIZE * e.sectors := by
          rw [hsame]
          exact le_trans (h.layout.holds inode hi hkind)
            (Nat.mul_le_mul_left _ (by rw [hsame] at hhoused; exact hhoused.grows))
        have hput := extend_differsIn hhoused hroom hlen hd₁
        have hstored : stored d₁ e len [] =
            patch d₁ e.first e.len.toNat (List.replicate (len - e.len.toNat) 0) := patch_nil _
        refine ⟨_, _, .done hi hkind hcapacity, hopen.bind (hensure.bind ?_)⟩
        refine (extend_runs h.size hhoused hroom hd₁ hdirty).bind ?_
        rw [hstored]
        exact writeInode_runs (hdirty _ hput) h.low (inTable_of_mem hi)
          (hcommit e d₁ _ hi hkind hcapacity hput)
  · exact ⟨_, _, .notFile hnot, hfail.bind_error⟩

/-- **`read`**, on paper. -/
theorem read_runs (h : Mounted E d T) (hd : E.inv d) (hi : inode ∈ inodeNumbers)
    (hkind : (T inode).kind = 1) (offset bufferLen : Nat) :
    Runs E (read inode offset bufferLen) d (.ok (flatBytes d (T inode).first offset
      (min bufferLen ((T inode).len.toNat - offset)))) d := by
  have hholds := h.layout.holds inode hi hkind
  have hread := readInode_reads hd h.low (inTable_of_mem hi)
  rw [h.shows inode (inTable_of_mem hi)] at hread
  have hkind' : (T inode).nodeKind = .ok .file := if_pos hkind
  have hopen : Runs E (openFile inode) d (.ok (T inode)) d := by
    refine (hread.runs hd).bind ?_
    rw [hkind']
    exact ((Reads.ofExcept _).runs hd).bind (Runs.pure _)
  refine hopen.bind ?_
  by_cases hpast : (T inode).len.toNat ≤ offset
  · rw [if_pos hpast, Nat.sub_eq_zero_of_le hpast, Nat.min_zero]
    exact Runs.pure _
  · rw [if_neg hpast]
    obtain ⟨k, hloop⟩ := readLoop_reads (h.inDevice hi hkind) hd
      (min bufferLen ((T inode).len.toNat - offset)) (le_refl _)
      (show offset + min bufferLen ((T inode).len.toNat - offset) ≤
        SECTOR_SIZE * (T inode).sectors by omega)
    exact hloop.runs hd

end Operations

end GenericKernel.Fs
