import GenericKernel.Lib.Bytes
import GenericKernel.Lib.Fallible
import GenericKernel.Vfs.Vfs

/-!
# The initial file tree

The build script packs files and directories into an archive; the kernel unpacks it at boot.

* `appendRecord`, `buildArchive` — the archive of a list of records.
* `unpack` — the kernel's loop over the archive, with `readU16`, `readU32`.

The script's walk over the host directory is not modelled: it only decides on the records.
-/

namespace GenericKernel.Initramfs

open GenericKernel.Lib GenericKernel.VfsCore

/-- `b"GIR1"`. -/
def magic : List UInt8 := [0x47, 0x49, 0x52, 0x31]

/-! ## The build script -/

/-- It panics if a length does not fit its field. -/
def appendRecord (archive : List UInt8) (kind : UInt8) (path : String) (data : List UInt8) :
    Option (List UInt8) :=
  if (nameBytes path).length < 2 ^ 16 ∧ data.length < 2 ^ 32 then
    some (archive ++ ([kind] ++ leBytes 2 (nameBytes path).length ++ leBytes 4 data.length ++
      nameBytes path ++ data))
  else none

/-- A record, its path given by the components. -/
inductive Record where
  | file (path : List String) (data : List UInt8)
  | directory (path : List String)

namespace Record

def path : Record → List String
  | file path _ => path
  | directory path => path

def kind : Record → NodeKind
  | file _ _ => .file
  | directory _ => .directory

def kindByte : Record → UInt8
  | file _ _ => 1
  | directory _ => 2

/-- The data of a directory record is `&[]`. -/
def data : Record → List UInt8
  | file _ data => data
  | directory _ => []

end Record

/-- A path without the leading slash. -/
def relativePath (components : List String) : String :=
  String.ofList (['/'].intercalate (components.map String.toList))

/-- The archive of the records, up to its end mark. -/
def appendRecords (archive : List UInt8) (records : List Record) : Option (List UInt8) :=
  records.foldlM (fun archive r => appendRecord archive r.kindByte (relativePath r.path) r.data) archive

def buildArchive (records : List Record) : Option (List UInt8) :=
  (appendRecords magic records).map (· ++ [0])

/-! ## The kernel -/

/-- `ARCHIVE.get(offset..offset + count)`. -/
def get (archive : List UInt8) (offset count : Nat) : Except VfsError (List UInt8) :=
  if offset + count ≤ archive.length then .ok ((archive.drop offset).take count)
  else .error .corruptFilesystem

def readU16 (archive : List UInt8) (offset : Nat) : Except VfsError (Nat × Nat) := do
  let bytes ← get archive offset 2
  return (leNat bytes, offset + 2)

def readU32 (archive : List UInt8) (offset : Nat) : Except VfsError (Nat × Nat) := do
  let bytes ← get archive offset 4
  return (leNat bytes, offset + 4)

/-- A record as `unpack` reads it. -/
inductive Item where
  | file (path : String) (data : List UInt8)
  | directory (path : String)

def Item.files : Item → Nat
  | file _ _ => 1
  | directory _ => 0

/-- The rest of a record behind its kind, and the offset behind it. -/
def readItem (archive : List UInt8) (kind : UInt8) (offset : Nat) : Except VfsError (Item × Nat) := do
  let (pathLen, offset) ← readU16 archive offset
  let (dataLen, offset) ← readU32 archive offset
  let pathBytes ← get archive offset pathLen
  match String.fromUTF8? ⟨pathBytes.toArray⟩ with
  | none => .error .corruptFilesystem
  | some pathText =>
    if kind = 1 then
      let data ← get archive (offset + pathLen) dataLen
      return (.file ("/" ++ pathText) data, offset + pathLen + dataLen)
    else if kind = 2 then
      if dataLen ≠ 0 then .error .corruptFilesystem
      else return (.directory ("/" ++ pathText), offset + pathLen)
    else .error .corruptFilesystem

section Unpack

variable {F α β : Type} [FileSystem F]

/-- One round of the loop behind the reading. -/
def Item.place (vfs : Vfs F) : Item → Except VfsError Unit × Vfs F
  | file path data =>
    let write (vfs : Vfs F) : Except VfsError Unit × Vfs F :=
      andThen (vfs.write path 0 data) fun vfs => (.ok (), vfs)
    match vfs.metadata path with
    | .ok metadata =>
      if metadata.kind = .file then andThen (vfs.truncate path 0) write
      else (.error .alreadyExists, vfs)
    | .error .notFound => andThen (vfs.createFile path) write
    | .error e => (.error e, vfs)
  | directory path =>
    match vfs.metadata path with
    | .ok metadata =>
      if metadata.kind = .directory then (.ok (), vfs) else (.error .alreadyExists, vfs)
    | .error .notFound => andThen (vfs.createDir path) fun vfs => (.ok (), vfs)
    | .error e => (.error e, vfs)

/-- Reading goes forward. -/
theorem le_of_readItem {archive : List UInt8} {kind : UInt8} {offset offset' : Nat} {item : Item}
    (h : readItem archive kind offset = .ok (item, offset')) : offset ≤ offset' := by
  unfold readItem readU16 readU32 at h
  obtain ⟨⟨pathLen, offset₁⟩, h₁, h⟩ := except_bind_eq_ok.mp h
  obtain ⟨bytes, -, h₁⟩ := except_bind_eq_ok.mp h₁
  obtain ⟨⟨dataLen, offset₂⟩, h₂, h⟩ := except_bind_eq_ok.mp h
  obtain ⟨bytes', -, h₂⟩ := except_bind_eq_ok.mp h₂
  obtain ⟨pathBytes, -, h⟩ := except_bind_eq_ok.mp h
  obtain rfl := (Prod.mk.inj (Except.ok.inj h₁)).2
  obtain rfl := (Prod.mk.inj (Except.ok.inj h₂)).2
  split at h
  · cases h
  · split at h
    · obtain ⟨data, -, h⟩ := except_bind_eq_ok.mp h
      have := (Prod.mk.inj (Except.ok.inj h)).2
      omega
    · split at h
      · split at h
        · cases h
        · have := (Prod.mk.inj (Except.ok.inj h)).2
          omega
      · cases h

/-- The loop: a kind, and the record that follows it unless the kind is the end mark. -/
def unpackFrom (archive : List UInt8) (offset files : Nat) (vfs : Vfs F) :
    Except VfsError Nat × Vfs F :=
  match _hkind : archive[offset]? with
  | none => (.error .corruptFilesystem, vfs)
  | some kind =>
    if kind = 0 then (.ok files, vfs)
    else
      match _hitem : readItem archive kind (offset + 1) with
      | .error e => (.error e, vfs)
      | .ok (item, offset') =>
        andThen (item.place vfs) fun vfs => unpackFrom archive offset' (files + item.files) vfs
termination_by archive.length - offset
decreasing_by
  have := (List.getElem?_eq_some_iff.mp _hkind).1
  have := le_of_readItem _hitem
  omega

def unpack (archive : List UInt8) (vfs : Vfs F) : Except VfsError Nat × Vfs F :=
  if archive.length < 5 ∨ archive.take 4 ≠ magic then (.error .corruptFilesystem, vfs)
  else unpackFrom archive 4 0 vfs

theorem unpackFrom_stop {archive : List UInt8} {offset : Nat} (h : archive[offset]? = some 0)
    (files : Nat) (vfs : Vfs F) : unpackFrom archive offset files vfs = (.ok files, vfs) := by
  rw [unpackFrom]
  split
  · rename_i hnone
    rw [hnone] at h
    cases h
  · rename_i kind hkind
    obtain rfl := Option.some.inj (hkind.symm.trans h)
    exact if_pos rfl

theorem unpackFrom_item {archive : List UInt8} {offset offset' : Nat} {kind : UInt8} {item : Item}
    (h : archive[offset]? = some kind) (hne : kind ≠ 0)
    (hitem : readItem archive kind (offset + 1) = .ok (item, offset')) (files : Nat) (vfs : Vfs F) :
    unpackFrom archive offset files vfs =
      andThen (item.place vfs) fun vfs => unpackFrom archive offset' (files + item.files) vfs := by
  rw [unpackFrom]
  split
  · rename_i hnone
    rw [hnone] at h
    cases h
  · rename_i kind' hkind
    obtain rfl := Option.some.inj (hkind.symm.trans h)
    rw [if_neg hne]
    split
    · rename_i herror
      rw [herror] at hitem
      cases hitem
    · rename_i item' offset'' hok
      obtain ⟨rfl, rfl⟩ := Prod.mk.inj (Except.ok.inj (hok.symm.trans hitem))
      rfl

end Unpack

end GenericKernel.Initramfs
