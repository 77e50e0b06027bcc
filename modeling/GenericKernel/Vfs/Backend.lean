import GenericKernel.Vfs.GenericFsLogic
import GenericKernel.Vfs.Listings
import GenericKernel.Vfs.RamFsLogic

/-!
# Either backend

A `Vfs` holds its filesystems as `Box<dyn FileSystem>`; `Backend` is one of the two that there are.

* `Backend.lawful` — it keeps the contract of the VFS, because both do.
* `Backend.Used` — the filesystems that can be handed to `Vfs::new` and `mount`.
-/

namespace GenericKernel.VfsCore

open GenericKernel.Lib

/-! ## Outcomes behind a wrapper -/

section Wrapped

variable {F G : Type} [FileSystem F] [FileSystem G] {wrap : F → G} {Inv : F → Prop}
  {Inv' : G → Prop} {Room : F → String → Prop} {Room' : G → String → Prop} {fs : F} {p : Nat}
  {n : String} (hgraph : ∀ fs, graph (wrap fs) = graph fs)
  (hroot : ∀ fs, FileSystem.rootInode (wrap fs) = FileSystem.rootInode fs)
  (hinv : ∀ fs, Inv fs → Inv' (wrap fs))

include hgraph hroot

theorem SameNames.wrapped {fs' : F} (h : SameNames fs fs') : SameNames (wrap fs) (wrap fs') := by
  obtain ⟨hroot', hchild, hkind⟩ := h
  rw [← hroot, ← hroot] at hroot'
  rw [← hgraph, ← hgraph] at hchild
  rw [← hgraph fs, ← hgraph fs'] at hkind
  exact ⟨hroot', hchild, hkind⟩

include hinv

theorem Creates.wrapped {kind : NodeKind} {r : Except VfsError Nat × F}
    (hroom : ∀ fs n, Room' (wrap fs) n ↔ Room fs n) (h : Creates Inv Room fs p n kind r) :
    Creates Inv' Room' (wrap fs) p n kind (r.1, wrap r.2) := by
  cases h with
  | taken hi =>
    rw [← hgraph] at hi
    exact .taken hi
  | refused hnone hno =>
    rw [← hgraph] at hnone
    exact .refused hnone (mt (hroom fs n).mp hno)
  | linked hnone hdead hyes hfs' hroot' hlink =>
    rw [← hgraph] at hnone hdead
    rw [← hroot, ← hroot] at hroot'
    rw [← hgraph, ← hgraph] at hlink
    exact .linked hnone hdead ((hroom fs n).mpr hyes) (hinv _ hfs') hroot' hlink

theorem Removes.wrapped {r : Except VfsError Unit × F} (h : Removes Inv fs p n r) :
    Removes Inv' (wrap fs) p n (r.1, wrap r.2) := by
  cases h with
  | missing hnone =>
    rw [← hgraph] at hnone
    exact .missing hnone
  | notEmpty hi hm =>
    rw [← hgraph] at hi hm
    exact .notEmpty hi hm
  | unlinked hi hleaf hfs' hroot' hunlink =>
    rw [← hgraph] at hi hleaf
    rw [← hroot, ← hroot] at hroot'
    rw [← hgraph, ← hgraph] at hunlink
    exact .unlinked hi hleaf (hinv _ hfs') hroot' hunlink

end Wrapped

/-! ## The two -/

inductive Backend where
  | ram (fs : RamFs)
  | generic (fs : GenericFs)

namespace Backend

/-- A modifying method of the filesystem inside. -/
def mapResult {α F : Type} (wrap : F → Backend) (r : Except VfsError α × F) :
    Except VfsError α × Backend :=
  (r.1, wrap r.2)

instance : FileSystem Backend where
  name
    | ram fs => FileSystem.name fs
    | generic fs => FileSystem.name fs
  rootInode
    | ram fs => FileSystem.rootInode fs
    | generic fs => FileSystem.rootInode fs
  metadata
    | ram fs => FileSystem.metadata fs
    | generic fs => FileSystem.metadata fs
  lookup
    | ram fs => FileSystem.lookup fs
    | generic fs => FileSystem.lookup fs
  readDir
    | ram fs => FileSystem.readDir fs
    | generic fs => FileSystem.readDir fs
  createFile
    | ram fs, parent, name => mapResult ram (FileSystem.createFile fs parent name)
    | generic fs, parent, name => mapResult generic (FileSystem.createFile fs parent name)
  createDir
    | ram fs, parent, name => mapResult ram (FileSystem.createDir fs parent name)
    | generic fs, parent, name => mapResult generic (FileSystem.createDir fs parent name)
  read
    | ram fs => FileSystem.read fs
    | generic fs => FileSystem.read fs
  write
    | ram fs, inode, offset, data => mapResult ram (FileSystem.write fs inode offset data)
    | generic fs, inode, offset, data => mapResult generic (FileSystem.write fs inode offset data)
  truncate
    | ram fs, inode, len => mapResult ram (FileSystem.truncate fs inode len)
    | generic fs, inode, len => mapResult generic (FileSystem.truncate fs inode len)
  remove
    | ram fs, parent, name => mapResult ram (FileSystem.remove fs parent name)
    | generic fs, parent, name => mapResult generic (FileSystem.remove fs parent name)

def Sound : Backend → Prop
  | ram fs => RamFs.Sound fs
  | generic fs => GenericFs.Sound fs

def Room : Backend → String → Prop
  | ram fs => RamFs.Room fs
  | generic fs => GenericFs.Room fs

/-- Only the disk filesystem can lose its table to a request. -/
def Spared : Backend → Nat → Nat → Prop
  | ram _ => fun _ _ => True
  | generic fs => GenericFs.Spared fs

def through : Backend → VfsError
  | ram _ => .notDirectory
  | generic _ => .notFound

theorem graph_ram (fs : RamFs) : graph (ram fs) = graph fs := rfl

theorem graph_generic (fs : GenericFs) : graph (generic fs) = graph fs := rfl

/-- **The contract of the VFS**, kept by either. -/
theorem lawful : Lawful Backend Sound through Room Spared where
  tree := fun {b} h => by
    cases b with
    | ram fs => exact RamFs.lawful.tree h
    | generic fs => exact GenericFs.spared_lawful.tree h
  root := fun {b} h => by
    cases b with
    | ram fs => exact RamFs.lawful.root h
    | generic fs => exact GenericFs.spared_lawful.root h
  inode := fun {b} _ _ h => by
    cases b with
    | ram fs => exact RamFs.lawful.inode h
    | generic fs => exact GenericFs.spared_lawful.inode h
  childless := fun {b} _ _ _ _ h => by
    cases b with
    | ram fs => exact RamFs.lawful.childless h
    | generic fs => exact GenericFs.spared_lawful.childless h
  miss := fun {b} _ _ _ _ h => by
    cases b with
    | ram fs => exact RamFs.lawful.miss h
    | generic fs => exact GenericFs.spared_lawful.miss h
  readDir_file := fun {b} _ _ h => by
    cases b with
    | ram fs => exact RamFs.lawful.readDir_file h
    | generic fs => exact GenericFs.spared_lawful.readDir_file h
  readDir := fun {b} _ _ h => by
    cases b with
    | ram fs => exact RamFs.lawful.readDir h
    | generic fs => exact GenericFs.spared_lawful.readDir h
  createFile := fun {b} _ _ _ h hn hm hdir => by
    cases b with
    | ram fs =>
      exact (RamFs.lawful.createFile h hn hm hdir).wrapped graph_ram (fun _ => rfl) (fun _ h => h)
        fun _ _ => Iff.rfl
    | generic fs =>
      exact (GenericFs.spared_lawful.createFile h hn hm hdir).wrapped graph_generic (fun _ => rfl)
        (fun _ h => h) fun _ _ => Iff.rfl
  createDir := fun {b} _ _ _ h hn hm hdir => by
    cases b with
    | ram fs =>
      exact (RamFs.lawful.createDir h hn hm hdir).wrapped graph_ram (fun _ => rfl) (fun _ h => h)
        fun _ _ => Iff.rfl
    | generic fs =>
      exact (GenericFs.spared_lawful.createDir h hn hm hdir).wrapped graph_generic (fun _ => rfl)
        (fun _ h => h) fun _ _ => Iff.rfl
  remove := fun {b} _ _ _ h hn hm hdir => by
    cases b with
    | ram fs =>
      exact (RamFs.lawful.remove h hn hm hdir).wrapped graph_ram (fun _ => rfl) fun _ h => h
    | generic fs =>
      exact (GenericFs.spared_lawful.remove h hn hm hdir).wrapped graph_generic (fun _ => rfl) fun _ h => h
  write := fun {b} _ _ _ h hoffset hdata hstop => by
    cases b with
    | ram fs =>
      obtain ⟨hsound, hnames⟩ := RamFs.lawful.write h hoffset hdata hstop
      exact ⟨hsound, hnames.wrapped graph_ram fun _ => rfl⟩
    | generic fs =>
      obtain ⟨hsound, hnames⟩ := GenericFs.spared_lawful.write h hoffset hdata hstop
      exact ⟨hsound, hnames.wrapped graph_generic fun _ => rfl⟩
  truncate := fun {b} _ _ h hlen hstop => by
    cases b with
    | ram fs =>
      obtain ⟨hsound, hnames⟩ := RamFs.lawful.truncate h hlen hstop
      exact ⟨hsound, hnames.wrapped graph_ram fun _ => rfl⟩
    | generic fs =>
      obtain ⟨hsound, hnames⟩ := GenericFs.spared_lawful.truncate h hlen hstop
      exact ⟨hsound, hnames.wrapped graph_generic fun _ => rfl⟩

/-- A call that leaves the table of a disk filesystem alone. -/
def SparedOp (b : Backend) : Fs.Op → Prop
  | .write inode offset data => b.Spared inode (offset + data.length)
  | .truncate inode len => b.Spared inode len
  | _ => True

/-- The filesystems there are to mount: new ones, and what such calls make of them. -/
inductive Used : Backend → Prop
  | ram : Used (.ram RamFs.new)
  | generic {fs : GenericFs} : fs.Fresh → Used (.generic fs)
  | perform {b : Backend} {op : Fs.Op} : Used b → op.Typed → b.SparedOp op → Used (perform b op)

theorem Used.sound {b : Backend} (h : b.Used) : b.Sound := by
  induction h with
  | ram => exact RamFs.new_sound
  | @generic fs hfresh =>
    obtain ⟨hword, d, hmount⟩ := hfresh
    obtain ⟨hsize, hdisk⟩ := Fs.mount_formats hmount
    have hC := Fs.formatted_consistent hsize hword d
    rw [← hdisk] at hC
    exact ⟨_, hC⟩
  | @perform b op _ htyped hspared ih =>
    cases b with
    | ram fs =>
      have hsound := RamFs.perform_sound ih op
      cases op <;> exact hsound
    | generic fs =>
      have hsound : GenericFs.Sound (VfsCore.perform fs op) := by
        rw [GenericFs.perform_eq]
        obtain ⟨T, hC⟩ := ih
        cases op with
        | createFile parent name => exact @Fs.step_consistent _ _ _ hC (.createFile parent name) trivial
        | createDir parent name => exact @Fs.step_consistent _ _ _ hC (.createDir parent name) trivial
        | write inode offset data =>
          exact (GenericFs.stores_of_sound (r := .write offset data) ⟨T, hC⟩ htyped hspared).1
        | truncate inode len =>
          exact (GenericFs.stores_of_sound (r := .truncate len) ⟨T, hC⟩
            ⟨htyped, show 0 < 2 ^ 63 by decide⟩ hspared).1
        | remove parent name => exact @Fs.step_consistent _ _ _ hC (.remove parent name) trivial
      cases op <;> exact hsound

end Backend

end GenericKernel.VfsCore
