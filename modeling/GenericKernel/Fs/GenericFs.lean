import GenericKernel.Fs.Block
import GenericKernel.Lib.BlockProgram
import GenericKernel.Lib.Bytes
import GenericKernel.Lib.Word

/-!
# GenericFS (`crates/kernel-core/src/genericfs.rs`)

Every method is a program over the sectors of its device; `sectors` stands for
`device.sector_count()`. Integers follow a release build on a 64-bit target:
`u64` and `usize` sums wrap, and `usize::try_from` of a `u64` cannot fail.

* the four loops `for inode in 2..=INODE_COUNT` that look at one record after
  another are `scan`, with the loop's body as its argument;
* `zero_range` and the loop of `write` read, patch and write back one sector
  after another; they are `overlay` with their bytes;
* the sort in `find_extent` is by start; equal starts do not occur between
  disjoint extents.
-/

namespace GenericKernel.Fs

open GenericKernel.Lib

/-- `b"GENFS1\0\0"`. -/
def MAGIC : List UInt8 := [0x47, 0x45, 0x4e, 0x46, 0x53, 0x31, 0, 0]
def VERSION : UInt32 := 1
def INODE_COUNT : Nat := 64
def INODE_SIZE : Nat := 128
def INODES_PER_SECTOR : Nat := SECTOR_SIZE / INODE_SIZE
def INODE_TABLE_START : Nat := 1
def INODE_TABLE_SECTORS : Nat := (INODE_COUNT * INODE_SIZE + SECTOR_SIZE - 1) / SECTOR_SIZE
def DATA_START : Nat := INODE_TABLE_START + INODE_TABLE_SECTORS
def MAX_DISK_NAME : Nat := 63

/-- What a sector access is for: the superblock and the inode table, or sector
`index` of the extent at `start`. -/
inductive Purpose
  | metadata
  | extent (start index : Nat)
  deriving DecidableEq

/-- A program of the filesystem. -/
abbrev FsProg (α : Type) := BlockProg Purpose Sector BlockError VfsError α

/-- The sectors of a device. -/
abbrev Disk := Nat → Sector

def mapBlock : BlockError → VfsError
  | .outOfRange => .corruptFilesystem
  | .readOnly => .io
  | .io => .io

def readSector (sector : Nat) : FsProg Sector := readBlock mapBlock .metadata sector

def writeSector (sector : Nat) (buffer : Sector) : FsProg Unit :=
  writeBlock mapBlock .metadata sector buffer

/-- `read_sector(start + index, ..)` of the loops over an extent. -/
def readExtent (start index : Nat) : FsProg Sector :=
  readBlock mapBlock (.extent start index) (wrappingAdd start index)

/-- `write_sector(start + index, ..)` of the loops over an extent. -/
def writeExtent (start index : Nat) (buffer : Sector) : FsProg Unit :=
  writeBlock mapBlock (.extent start index) (wrappingAdd start index) buffer

def zeroSector : Sector := Vector.replicate SECTOR_SIZE 0

/-! ## Inode records -/

structure DiskInode where
  kind : UInt8
  nameLen : UInt8
  parent : UInt64
  len : UInt64
  startSector : UInt64
  sectorCount : UInt32
  name : Vector UInt8 64
  deriving DecidableEq

namespace DiskInode

def empty : DiskInode := ⟨0, 0, 0, 0, 0, 0, Vector.replicate 64 0⟩

def root : DiskInode := { empty with kind := 2, parent := 1 }

def nodeKind (self : DiskInode) : Except VfsError NodeKind :=
  if self.kind = 1 then .ok .file
  else if self.kind = 2 then .ok .directory
  else .error .notFound

/-- `name()`: the first `name_len` bytes as a string. -/
def nameText (self : DiskInode) : Except VfsError String :=
  match String.fromUTF8? ⟨(self.name.toList.take self.nameLen.toNat).toArray⟩ with
  | some text => .ok text
  | none => .error .corruptFilesystem

end DiskInode

/-- `raw.fill(0)`, then the fields at their offsets (0, 2, 4, 12, 20, 28, 32). -/
def encodeInode (entry : DiskInode) : List UInt8 :=
  [entry.kind, 0, entry.nameLen, 0] ++ leBytes 8 entry.parent.toNat ++
    leBytes 8 entry.len.toNat ++ leBytes 8 entry.startSector.toNat ++
    leBytes 4 entry.sectorCount.toNat ++ entry.name.toList ++ List.replicate 32 0

def readU64 (raw : List UInt8) (offset : Nat) : UInt64 := leUInt64 ((raw.drop offset).take 8)

def readU32 (raw : List UInt8) (offset : Nat) : UInt32 := leUInt32 ((raw.drop offset).take 4)

def decodeInode (raw : List UInt8) : Except VfsError DiskInode :=
  let entry : DiskInode := {
    kind := raw.getD 0 0
    nameLen := raw.getD 2 0
    parent := readU64 raw 4
    len := readU64 raw 12
    startSector := readU64 raw 20
    sectorCount := readU32 raw 28
    name := Vector.ofFn fun i => raw.getD (32 + i) 0 }
  if entry.nameLen.toNat > MAX_DISK_NAME ∨ entry.kind > 2 then .error .corruptFilesystem
  else .ok entry

def inodeIndex (inode : Nat) : Except VfsError Nat :=
  if inode = 0 then .error .notFound
  else if INODE_COUNT ≤ inode - 1 then .error .notFound
  else .ok (inode - 1)

/-- The sector of the record with this index. -/
def inodeSector (index : Nat) : Nat := INODE_TABLE_START + index / INODES_PER_SECTOR

/-- Its offset in that sector. -/
def inodeOffset (index : Nat) : Nat := index % INODES_PER_SECTOR * INODE_SIZE

def readInode (inode : Nat) : FsProg DiskInode := do
  let index ← ofExcept (inodeIndex inode)
  let raw ← readSector (inodeSector index)
  ofExcept (decodeInode (slice raw (inodeOffset index) INODE_SIZE))

def writeInode (inode : Nat) (value : DiskInode) : FsProg Unit := do
  let index ← ofExcept (inodeIndex inode)
  let raw ← readSector (inodeSector index)
  writeSector (inodeSector index) (splice raw (inodeOffset index) (encodeInode value))

/-! ## Mounting -/

def superblock (sectors : Nat) : Sector :=
  splice zeroSector 0 (MAGIC ++ leBytes 4 VERSION.toNat ++ leBytes 4 INODE_COUNT ++
    leBytes 8 DATA_START ++ leBytes 8 sectors)

def format (sectors : Nat) : FsProg Unit := do
  forRange (fun sector => writeSector sector zeroSector) DATA_START
  writeSector 0 (superblock sectors)
  writeInode 1 DiskInode.root

/-- `mount`; the result says whether the device was formatted. -/
def mount (sectors : Nat) (formatIfMissing : Bool) : FsProg Bool :=
  if sectors ≤ DATA_START + 1 then throw .noSpace
  else do
    let raw ← readSector 0
    if slice raw 0 8 = MAGIC then
      if readU32 raw.toList 8 ≠ VERSION ∨ (readU32 raw.toList 12).toNat ≠ INODE_COUNT ∨
          (readU64 raw.toList 16).toNat ≠ DATA_START ∨
          (readU64 raw.toList 24).toNat ≠ sectors then
        throw .corruptFilesystem
      else do
        let rootEntry ← readInode 1
        if rootEntry.kind ≠ 2 then throw .corruptFilesystem else pure false
    else if formatIfMissing = false then throw .corruptFilesystem
    else do
      format sectors
      pure true

/-! ## The namespace -/

/-- `2..=INODE_COUNT`. -/
def inodeNumbers : List Nat := List.range' 2 (INODE_COUNT - 1)

/-- Look at one record after another until `visit` finds something. -/
def scan {β : Type} (visit : Nat → DiskInode → Except VfsError (Option β)) :
    List Nat → FsProg (Option β)
  | [] => pure none
  | inode :: rest => do
      let entry ← readInode inode
      match ← ofExcept (visit inode entry) with
      | some found => pure (some found)
      | none => scan visit rest

/-- Whether the record is the child `name` of `parent`. -/
def isChild (parent : Nat) (name : String) (inode : Nat) (entry : DiskInode) :
    Except VfsError (Option Nat) :=
  if entry.kind ≠ 0 ∧ entry.parent.toNat = parent then
    entry.nameText.map fun text => if text = name then some inode else none
  else .ok none

def findChild (parent : Nat) (name : String) : FsProg Nat := do
  match ← scan (isChild parent name) inodeNumbers with
  | some inode => pure inode
  | none => throw .notFound

/-- Whether the record is unused. -/
def isUnused (inode : Nat) (entry : DiskInode) : Except VfsError (Option Nat) :=
  .ok (if entry.kind = 0 then some inode else none)

def allocateInode : FsProg Nat := do
  match ← scan isUnused inodeNumbers with
  | some inode => pure inode
  | none => throw .noSpace

def validateDiskName (name : String) : Except VfsError Unit :=
  if name = "" ∨ name = "." ∨ name = ".." ∨ '/' ∈ name.toList ∨ '\x00' ∈ name.toList then
    .error .invalidName
  else if (nameBytes name).length > MAX_DISK_NAME then .error .nameTooLong
  else .ok ()

/-- The record of a new node. -/
def newEntry (parent : Nat) (name : String) (kind : UInt8) : DiskInode :=
  { DiskInode.empty with
    kind := kind
    parent := UInt64.ofNat parent
    nameLen := UInt8.ofNat (nameBytes name).length
    name := splice DiskInode.empty.name 0 (nameBytes name) }

def create (parent : Nat) (name : String) (kind : UInt8) : FsProg Nat := do
  ofExcept (validateDiskName name)
  let directory ← readInode parent
  let nodeKind ← ofExcept directory.nodeKind
  if nodeKind ≠ .directory then throw .notDirectory
  else do
    -- `find_child(..).is_ok()`: any error counts as "no such child"
    match ← observe (findChild parent name) with
    | .ok _ => throw .alreadyExists
    | .error _ => do
        let inode ← allocateInode
        writeInode inode (newEntry parent name kind)
        pure inode

def createFile (parent : Nat) (name : String) : FsProg Nat := create parent name 1

def createDir (parent : Nat) (name : String) : FsProg Nat := create parent name 2

def lookup (parent : Nat) (name : String) : FsProg Nat := findChild parent name

def metadata (inode : Nat) : FsProg Metadata := do
  let entry ← readInode inode
  let kind ← ofExcept entry.nodeKind
  pure ⟨inode, kind, if entry.kind = 1 then entry.len.toNat else 0⟩

/-- The loop of `read_dir`. -/
def listChildren (inode : Nat) : List Nat → FsProg (List DirEntry)
  | [] => pure []
  | child :: rest => do
      let entry ← readInode child
      if entry.kind ≠ 0 ∧ entry.parent.toNat = inode then do
        let name ← ofExcept entry.nameText
        let childMetadata ← metadata child
        let entries ← listChildren inode rest
        pure (⟨name, childMetadata⟩ :: entries)
      else listChildren inode rest

def readDir (inode : Nat) : FsProg (List DirEntry) := do
  let entry ← readInode inode
  let nodeKind ← ofExcept entry.nodeKind
  if nodeKind ≠ .directory then throw .notDirectory
  else do
    let entries ← listChildren inode inodeNumbers
    pure (entries.mergeSort fun left right => nameLe left.name right.name)

/-- Whether the record is a child of `parent`. -/
def isChildOf (parent : Nat) (_inode : Nat) (entry : DiskInode) :
    Except VfsError (Option Unit) :=
  .ok (if entry.kind ≠ 0 ∧ entry.parent.toNat = parent then some () else none)

def remove (parent : Nat) (name : String) : FsProg Unit := do
  let inode ← findChild parent name
  let entry ← readInode inode
  if entry.kind = 2 then
    match ← scan (isChildOf inode) inodeNumbers with
    | some _ => throw .directoryNotEmpty
    | none => writeInode inode DiskInode.empty
  else writeInode inode DiskInode.empty

/-! ## Extents -/

/-- First and past-the-end sector of every other file's extent. -/
def usedExtents (exclude : Nat) : List Nat → FsProg (List (Nat × Nat))
  | [] => pure []
  | inode :: rest =>
      if inode = exclude then usedExtents exclude rest
      else do
        let entry ← readInode inode
        let used ← usedExtents exclude rest
        if entry.kind = 1 ∧ entry.sectorCount ≠ 0 then
          pure ((entry.startSector.toNat,
            wrappingAdd entry.startSector.toNat entry.sectorCount.toNat) :: used)
        else pure used

/-- The first gap of `count` sectors from `candidate` on. -/
def firstGap (count sectors : Nat) : Nat → List (Nat × Nat) → Option Nat
  | candidate, [] => if wrappingAdd candidate count ≤ sectors then some candidate else none
  | candidate, (start, stop) :: rest =>
      if wrappingAdd candidate count ≤ start then some candidate
      else firstGap count sectors (max candidate stop) rest

def findExtent (sectors count exclude : Nat) : FsProg Nat :=
  if count = 0 then pure 0
  else do
    let used ← usedExtents exclude inodeNumbers
    match firstGap count sectors DATA_START (used.mergeSort fun a b => a.1 ≤ b.1) with
    | some start => pure start
    | none => throw .noSpace

/-- `ensure_capacity`, with the updated entry as result. -/
def ensureCapacity (sectors inode : Nat) (entry : DiskInode) (needed : Nat) :
    FsProg DiskInode :=
  if needed ≤ entry.sectorCount.toNat then pure entry
  else do
    let newStart ← findExtent sectors needed inode
    forRange (fun sector => writeExtent newStart sector zeroSector) needed
    forRange (fun sector => do
      let buffer ← readExtent entry.startSector.toNat sector
      writeExtent newStart sector buffer) entry.sectorCount.toNat
    if needed < 2 ^ 32 then
      pure { entry with
        startSector := UInt64.ofNat newStart
        sectorCount := UInt32.ofNat needed }
    else throw .noSpace

/-! ## File contents -/

/-- Put `bytes` at byte `position` of the extent at `start`, sector by sector.
A round consumes at least one byte, so `bytes.length` rounds are enough. -/
def overlay (start : Nat) : Nat → Nat → List UInt8 → FsProg Unit
  | 0, _, _ => pure ()
  | fuel + 1, position, bytes =>
      if bytes.length = 0 then pure ()
      else do
        let index := position / SECTOR_SIZE
        let within := position % SECTOR_SIZE
        let count := min (SECTOR_SIZE - within) bytes.length
        let buffer ← readExtent start index
        writeExtent start index (splice buffer within (bytes.take count))
        overlay start fuel (position + count) (bytes.drop count)

def zeroRange (entry : DiskInode) (start stop : Nat) : FsProg Unit :=
  if stop ≤ start then pure ()
  else
    overlay entry.startSector.toNat (stop - start) start (List.replicate (stop - start) 0)

/-- Take `total` bytes from byte `position` of the extent at `start`. -/
def readLoop (start : Nat) : Nat → Nat → Nat → FsProg (List UInt8)
  | 0, _, _ => pure []
  | fuel + 1, position, total =>
      if total = 0 then pure []
      else do
        let within := position % SECTOR_SIZE
        let count := min (SECTOR_SIZE - within) total
        let sector ← readExtent start (position / SECTOR_SIZE)
        let rest ← readLoop start fuel (position + count) (total - count)
        pure (slice sector within count ++ rest)

def sectorsForLen (len : Nat) : Nat :=
  if len = 0 then 0 else (len + SECTOR_SIZE - 1) % wordSize / SECTOR_SIZE

/-- The record of a file; `read`, `write` and `truncate` begin with it. -/
def openFile (inode : Nat) : FsProg DiskInode := do
  let entry ← readInode inode
  let nodeKind ← ofExcept entry.nodeKind
  if nodeKind = .directory then throw .isDirectory else pure entry

/-- `read` into a buffer of `bufferLen` bytes; the result is what was copied. -/
def read (inode offset bufferLen : Nat) : FsProg (List UInt8) := do
  let entry ← openFile inode
  if entry.len.toNat ≤ offset then pure []
  else
    let total := min bufferLen (entry.len.toNat - offset)
    readLoop entry.startSector.toNat total offset total

/-- `if offset > old_len { self.zero_range(&entry, old_len, offset)?; }` -/
def fillGap (entry : DiskInode) (offset : Nat) : FsProg Unit :=
  if entry.len.toNat < offset then zeroRange entry entry.len.toNat offset else pure ()

def write (sectors inode offset : Nat) (data : List UInt8) : FsProg Nat := do
  let entry ← openFile inode
  match checkedAdd offset data.length with
  | none => throw .offsetOverflow
  | some stop => do
      let entry ← ensureCapacity sectors inode entry (sectorsForLen stop)
      fillGap entry offset
      overlay entry.startSector.toNat data.length offset data
      writeInode inode { entry with len := max entry.len (UInt64.ofNat stop) }
      pure data.length

def truncate (sectors inode len : Nat) : FsProg Unit := do
  let entry ← openFile inode
  let entry ← ensureCapacity sectors inode entry (sectorsForLen len)
  fillGap entry len
  writeInode inode { entry with len := UInt64.ofNat len }

end GenericKernel.Fs
