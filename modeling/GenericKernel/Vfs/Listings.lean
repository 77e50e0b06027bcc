import GenericKernel.Fs.Extremes
import GenericKernel.Vfs.GenericBackend
import GenericKernel.Vfs.RamFsLogic

/-!
# Listings and lookups

* `Reached` — the states of a backend, by any calls of its modifying methods: inode numbers that
  no lookup returned, bad names and offsets at the end of the address space are among them.
* `ListsExactly` — a directory lists what its lookups find, in the order of the names.
* `readDir_lists_lookups` — both backends do, in every reached state. `GenericFs` can lose records
  to a wild offset; what is left is tidy, and that is enough.
-/

namespace GenericKernel.VfsCore

open GenericKernel.Lib

section Backend

variable {F : Type} [FileSystem F]

/-- A call of a modifying method. -/
def perform (fs : F) : Fs.Op → F
  | .createFile parent name => (FileSystem.createFile fs parent name).2
  | .createDir parent name => (FileSystem.createDir fs parent name).2
  | .write inode offset data => (FileSystem.write fs inode offset data).2
  | .truncate inode len => (FileSystem.truncate fs inode len).2
  | .remove parent name => (FileSystem.remove fs parent name).2

/-- The states that calls lead to. -/
inductive Reached (Fresh : F → Prop) : F → Prop
  | fresh {fs : F} : Fresh fs → Reached Fresh fs
  | call {fs : F} {op : Fs.Op} : Reached Fresh fs → op.Typed → Reached Fresh (perform fs op)

def IsDirectory (fs : F) (inode : Nat) : Prop :=
  ∃ m, FileSystem.metadata fs inode = .ok m ∧ m.kind = .directory

/-- The listing of a directory is sorted, has an entry for every name that can be looked up, and
no others. -/
def ListsExactly (fs : F) (inode : Nat) : Prop :=
  ∃ entries, FileSystem.readDir fs inode = .ok entries ∧
    (entries.Pairwise fun left right => compareNames left.name right.name = .lt) ∧
    (∀ name i, FileSystem.lookup fs inode name = .ok i ↔
      ∃ x ∈ entries, x.name = name ∧ FileSystem.metadata fs i = .ok x.metadata) ∧
    ∀ x ∈ entries, ∃ i, FileSystem.lookup fs inode x.name = .ok i ∧
      FileSystem.metadata fs i = .ok x.metadata

/-- Metadata carries its inode, so an entry belongs to one inode. -/
theorem listsExactly_of_listing {fs : F} {inode : Nat} {entries : List DirEntry}
    (hinode : ∀ {i m}, FileSystem.metadata fs i = .ok m → m.inode = i)
    (hlive : ∀ {n i}, FileSystem.lookup fs inode n = .ok i → ∃ m, FileSystem.metadata fs i = .ok m)
    (hread : FileSystem.readDir fs inode = .ok entries)
    (h : IsListing (fun n => ((graph fs).child inode n).bind (graph fs).info) entries) :
    ListsExactly fs inode := by
  have hmem : ∀ x, x ∈ entries ↔ ∃ i, FileSystem.lookup fs inode x.name = .ok i ∧
      FileSystem.metadata fs i = .ok x.metadata := by
    intro x
    rw [h.mem]
    show ((FileSystem.lookup fs inode x.name).toOption.bind fun i =>
      (FileSystem.metadata fs i).toOption) = some x.metadata ↔ _
    simp only [Option.bind_eq_some_iff, toOption_eq_some]
  refine ⟨entries, hread, h.sorted, fun name i => ⟨fun hi => ?_, ?_⟩, fun x hx => (hmem x).mp hx⟩
  · obtain ⟨m, hm⟩ := hlive hi
    exact ⟨⟨name, m⟩, (hmem _).mpr ⟨i, hi, hm⟩, rfl, hm⟩
  · rintro ⟨x, hx, rfl, hm⟩
    obtain ⟨j, hj, hm'⟩ := (hmem x).mp hx
    rw [hj, ← hinode hm, ← hinode hm']

end Backend

namespace RamFs

variable {fs : RamFs}

theorem perform_sound (h : Sound fs) (op : Fs.Op) : Sound (perform fs op) := by
  have hcreate : ∀ parent name kind, Sound (fs.createNode parent name kind).2 := by
    intro parent name kind
    have hspec := createNode_spec h parent name kind
    generalize fs.createNode parent name kind = result at hspec ⊢
    cases hspec with
    | refused => exact h
    | taken => exact h
    | exhausted => exact h
    | done _ _ hsound => exact hsound
  cases op with
  | createFile parent name => exact hcreate parent name .file
  | createDir parent name => exact hcreate parent name .directory
  | write inode offset data => exact ((write_spec h inode offset data).sameNames h).1
  | truncate inode len => exact ((truncate_spec h inode len).sameNames h).1
  | remove parent name =>
    have hspec := remove_spec h parent name
    show Sound (fs.remove parent name).2
    generalize fs.remove parent name = result at hspec ⊢
    cases hspec with
    | refused => exact h
    | missing => exact h
    | notEmpty => exact h
    | done _ _ hsound => exact hsound

theorem reached_sound (h : Reached (· = new) fs) : Sound fs := by
  induction h with
  | fresh hnew => exact hnew ▸ new_sound
  | @call fs op _ _ ih => exact perform_sound ih op

theorem listsExactly (h : Sound fs) {inode : Nat} (hdir : IsDirectory fs inode) :
    ListsExactly fs inode := by
  obtain ⟨m, hm, hkind⟩ := hdir
  obtain ⟨entries, hread, hlisting⟩ := lawful.readDir h hm hkind
  refine listsExactly_of_listing lawful.inode (fun {n i} hi => ?_) hread hlisting
  have hedge : (graph fs).child inode n = some i := toOption_eq_some.mpr hi
  obtain ⟨x, hx⟩ := Option.isSome_iff_exists.mp ((lawful.tree h).edge hedge).2
  exact ⟨x, toOption_eq_some.mp hx⟩

end RamFs

namespace GenericFs

variable {fs : GenericFs}

/-- A device that `mount` has just formatted. -/
def Fresh (fs : GenericFs) : Prop :=
  fs.sectors < wordSize ∧ ∃ d, evaluate fs.sectors .outOfRange (Fs.mount fs.sectors true) d =
    (.ok true, fs.disk)

theorem perform_eq (fs : GenericFs) (op : Fs.Op) :
    perform fs op = ⟨fs.sectors, Fs.step fs.sectors fs.disk op⟩ := by
  cases op <;> rfl

theorem reached_tidy (h : Reached Fresh fs) : Fs.DATA_START ≤ fs.sectors ∧ fs.sectors < wordSize ∧
    Fs.TidyDisk fs.sectors fs.disk := by
  induction h with
  | @fresh fs h =>
    obtain ⟨hword, d, hmount⟩ := h
    obtain ⟨hsize, hdisk⟩ := Fs.mount_formats hmount
    have hC := Fs.formatted_consistent hsize hword d
    rw [← hdisk] at hC
    exact ⟨le_of_lt (Nat.lt_of_succ_lt hsize), hword, _, hC.shows, Fs.blankTable_tidy fs.sectors⟩
  | @call fs op _ htyped ih =>
    obtain ⟨hlow, hword, htidy⟩ := ih
    rw [perform_eq]
    exact ⟨hlow, hword, Fs.step_tidy hlow hword htidy htyped⟩

theorem isDirectory_of_kind {T : Fs.Table} (hlow : Fs.DATA_START ≤ fs.sectors)
    (hT : Fs.Shows fs.disk T) {inode : Nat} (hin : Fs.InTable inode) (hdir : (T inode).kind = 2) :
    IsDirectory fs inode := by
  obtain ⟨m, hm, -, hkind⟩ := Fs.recordMetadata_of_live inode (hT.storable hin) (by rw [hdir]; decide)
  exact ⟨m, by rw [metadata_inTable hlow hT hin, hm], hkind.mpr hdir⟩

theorem listsExactly {T : Fs.Table} (hlow : Fs.DATA_START ≤ fs.sectors) (hT : Fs.Shows fs.disk T)
    (hnames : Fs.DistinctNames T) {inode : Nat} (hdir : IsDirectory fs inode) :
    ListsExactly fs inode := by
  obtain ⟨m, hm, hkind⟩ := hdir
  obtain ⟨hin, -, -⟩ := metadata_ok hlow hT hm
  obtain ⟨entries, hread, hlisting⟩ := readDir_listing hlow hT hnames hin
    ((kind_of_directory hlow hT hm).mp hkind)
  exact listsExactly_of_listing (metadata_inode hlow hT) (metadata_of_lookup hlow hT hnames) hread
    hlisting

end GenericFs

/-- A device of 32 sectors, formatted. -/
def smallDevice : GenericFs := ⟨32, Fs.formatted 32 fun _ => Fs.zeroSector⟩

theorem smallDevice_fresh : smallDevice.Fresh :=
  ⟨lt_wordSize (by decide), _, Fs.mount_zeros⟩

/-- **Listings and lookups agree**, in every reached state of either backend. -/
theorem readDir_lists_lookups :
    (∀ fs : RamFs, Reached (· = RamFs.new) fs → ∀ inode, IsDirectory fs inode →
      ListsExactly fs inode) ∧
    ∀ fs : GenericFs, Reached GenericFs.Fresh fs → ∀ inode, IsDirectory fs inode →
      ListsExactly fs inode := by
  refine ⟨fun fs h inode hdir => RamFs.listsExactly (RamFs.reached_sound h) hdir,
    fun fs h inode hdir => ?_⟩
  obtain ⟨hlow, -, T, hT, htidy⟩ := GenericFs.reached_tidy h
  exact GenericFs.listsExactly hlow hT htidy.distinct hdir

/-- The root directories with a first file in them. -/
theorem readDir_lists_lookups_firstFile :
    ListsExactly (perform RamFs.new (.createFile 1 "f")) 1 ∧
    ∃ fs : GenericFs, GenericFs.Fresh fs ∧ ListsExactly (perform fs (.createFile 1 "f")) 1 := by
  have hram : Reached (· = RamFs.new) (perform RamFs.new (.createFile 1 "f")) :=
    .call (.fresh rfl) trivial
  refine ⟨readDir_lists_lookups.1 _ hram 1 (RamFs.lawful.root (RamFs.reached_sound hram)),
    _, smallDevice_fresh, readDir_lists_lookups.2 _ (@Reached.call _ _ _ _ (.createFile 1 "f")
      (.fresh smallDevice_fresh) trivial) 1 ?_⟩
  rw [GenericFs.perform_eq]
  dsimp only [smallDevice]
  rw [← Fs.oneFile]
  have hC := Fs.createFile_zeros.2
  generalize Fs.oneFile = d at hC ⊢
  exact @GenericFs.isDirectory_of_kind ⟨32, d⟩ _ (show 17 ≤ 32 by decide) hC.shows 1 Fs.one_inTable
    rfl

end GenericKernel.VfsCore
