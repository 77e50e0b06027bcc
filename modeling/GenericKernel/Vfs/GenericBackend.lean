import GenericKernel.Fs.Faults
import GenericKernel.Vfs.Lawful

/-!
# GenericFS behind the mount layer

`GenericFs` is a filesystem on a device without faults: its methods are the programs of
`genericfs.rs`, run on the sectors.

* `DistinctNames` — every live record has a name, and no other record in its directory has it.
  Both `Names` and the weaker `Tidy` give it, and nothing more is needed to look names up.
* `lookup_eq_ok`, `metadata_of_live`, `readDir_listing` — what the methods that only look return.
-/

namespace GenericKernel.VfsCore

open GenericKernel.Lib Fs

structure GenericFs where
  sectors : Nat
  disk : Disk

namespace GenericFs

/-- The result of a program that only looks. -/
def returns {α : Type} (fs : GenericFs) (p : FsProg α) : Except VfsError α :=
  (evaluate fs.sectors .outOfRange p fs.disk).1

def performs {α : Type} (fs : GenericFs) (p : FsProg α) : Except VfsError α × GenericFs :=
  ((evaluate fs.sectors .outOfRange p fs.disk).1,
    { fs with disk := (evaluate fs.sectors .outOfRange p fs.disk).2 })

instance : FileSystem GenericFs where
  name _ := "genericfs"
  rootInode _ := 1
  metadata fs inode := fs.returns (Fs.metadata inode)
  lookup fs parent name := fs.returns (Fs.lookup parent name)
  readDir fs inode := fs.returns (Fs.readDir inode)
  createFile fs parent name := fs.performs (Fs.createFile parent name)
  createDir fs parent name := fs.performs (Fs.createDir parent name)
  read fs inode offset bufferLen := fs.returns (Fs.read inode offset bufferLen)
  write fs inode offset data := fs.performs (Fs.write fs.sectors inode offset data)
  truncate fs inode len := fs.performs (Fs.truncate fs.sectors inode len)
  remove fs parent name := fs.performs (Fs.remove parent name)

end GenericFs

end GenericKernel.VfsCore

namespace GenericKernel.Fs

open GenericKernel.Lib

/-- Live records have names, different ones in one directory. -/
structure DistinctNames (T : Table) : Prop where
  named : Named T
  unique : UniqueNames T

theorem Names.distinct {T : Table} (h : Names T) : DistinctNames T := ⟨h.named, h.unique⟩

theorem Tidy.distinct {sectors : Nat} {T : Table} (h : Tidy sectors T) : DistinctNames T :=
  ⟨h.named, h.unique⟩

/-- The metadata that a record holds. -/
def recordMetadata (inode : Nat) (e : DiskInode) : Except VfsError Metadata := do
  let kind ← e.nodeKind
  return ⟨inode, kind, if e.kind = 1 then e.len.toNat else 0⟩

/-- A live record is a file or a directory. -/
theorem recordMetadata_of_live {e : DiskInode} (inode : Nat) (hstorable : e.Storable)
    (hlive : e.kind ≠ 0) : ∃ m, recordMetadata inode e = .ok m ∧ m.inode = inode ∧
      (m.kind = .directory ↔ e.kind = 2) := by
  unfold recordMetadata DiskInode.nodeKind
  by_cases hfile : e.kind = 1
  · rw [if_pos hfile]
    exact ⟨_, rfl, rfl, by simp [hfile]⟩
  · rw [if_neg hfile]
    have hdir : e.kind = 2 := by
      have hle : e.kind.toNat ≤ 2 := hstorable.2
      have hzero : e.kind.toNat ≠ 0 := fun h => hlive (UInt8.toNat_inj.mp h)
      have hone : e.kind.toNat ≠ 1 := fun h => hfile (UInt8.toNat_inj.mp h)
      refine UInt8.toNat_inj.mp ?_
      show e.kind.toNat = 2
      omega
    rw [if_pos hdir]
    exact ⟨_, rfl, rfl, by simp [hdir]⟩

theorem recordMetadata_of_dead {e : DiskInode} (inode : Nat) (hdead : e.kind = 0) :
    recordMetadata inode e = .error .notFound := by
  unfold recordMetadata DiskInode.nodeKind
  rw [hdead]
  rfl

section Programs

variable {E : Env Sector BlockError} {d : Disk} {T : Table} (hd : E.inv d)
  (hlow : DATA_START ≤ E.size) (hT : Shows d T)
include hd hlow hT

theorem metadata_reads {inode : Nat} (hin : InTable inode) :
    Reads E 1 (metadata inode) d (recordMetadata inode (T inode)) := by
  have hread := readInode_reads hd hlow hin
  rw [hT inode hin] at hread
  have hkind : Reads E 0 (ofExcept (T inode).nodeKind : FsProg NodeKind) d (T inode).nodeKind :=
    Reads.ofExcept _
  unfold metadata recordMetadata
  cases hresult : (T inode).nodeKind with
  | error e =>
    rw [hresult] at hkind
    exact hread.bind (by rw [hresult]; exact hkind.bind_error) rfl
  | ok kind =>
    rw [hresult] at hkind
    exact hread.bind (by rw [hresult]; exact hkind.bind (Reads.pure _) rfl) rfl

/-- The loop of `read_dir` collects the children, each once. -/
theorem listChildren_reads (hnames : DistinctNames T) (inode : Nat) (numbers : List Nat)
    (hnumbers : ∀ i ∈ numbers, i ∈ inodeNumbers) (hnodup : numbers.Nodup) :
    ∃ entries k, Reads E k (listChildren inode numbers) d (.ok entries) ∧
      entries.Pairwise (fun left right => left.name ≠ right.name) ∧
      ∀ x, x ∈ entries ↔ ∃ i ∈ numbers, IsChild T inode x.name i ∧
        recordMetadata i (T i) = .ok x.metadata := by
  induction numbers with
  | nil => exact ⟨[], 0, Reads.pure _, .nil, fun x => by simp⟩
  | cons child rest ih =>
    obtain ⟨hfresh, hrest⟩ := List.nodup_cons.mp hnodup
    obtain ⟨entries, k, hreads, hdistinct, hmem⟩ :=
      ih (fun i hi => hnumbers i (List.mem_cons_of_mem _ hi)) hrest
    have hchild := hnumbers child List.mem_cons_self
    have hin := inTable_of_mem hchild
    have hread := readInode_reads hd hlow hin
    rw [hT child hin] at hread
    unfold listChildren
    by_cases hlive : (T child).kind ≠ 0 ∧ (T child).parent.toNat = inode
    · obtain ⟨name, hname⟩ := hnames.named child hchild hlive.1
      have hisChild : IsChild T inode name child := ⟨hchild, hlive.1, hlive.2, hname⟩
      obtain ⟨m, hm, -, -⟩ := recordMetadata_of_live child (hT.storable hin) hlive.1
      have hmetadata := metadata_reads hd hlow hT hin
      rw [hm] at hmetadata
      have htext : Reads E 0 (ofExcept (T child).nameText : FsProg String) d (.ok name) := by
        rw [hname]
        exact Reads.ofExcept _
      have hround : Reads E (0 + (1 + (k + 0))) (if (T child).kind ≠ 0 ∧
          (T child).parent.toNat = inode then do
            let name ← ofExcept (T child).nameText
            let childMetadata ← metadata child
            let entries ← listChildren inode rest
            pure (⟨name, childMetadata⟩ :: entries)
          else listChildren inode rest) d (.ok (⟨name, m⟩ :: entries)) := by
        rw [if_pos hlive]
        exact htext.bind (hmetadata.bind (hreads.bind (Reads.pure _) rfl) rfl) rfl
      refine ⟨⟨name, m⟩ :: entries, _, hread.bind hround rfl, ?_, fun x => ?_⟩
      · refine List.pairwise_cons.mpr ⟨fun x hx heq => ?_, hdistinct⟩
        obtain ⟨i, hi, hx', -⟩ := (hmem x).mp hx
        rw [← heq] at hx'
        exact hfresh (hnames.unique.child hisChild hx' ▸ hi)
      · rw [List.mem_cons, hmem]
        constructor
        · rintro (rfl | ⟨i, hi, hx⟩)
          · exact ⟨child, List.mem_cons_self, hisChild, hm⟩
          · exact ⟨i, List.mem_cons_of_mem _ hi, hx⟩
        · rintro ⟨i, hi, hx, hxm⟩
          rcases List.mem_cons.mp hi with rfl | hi
          · left
            have hsame : name = x.name := Except.ok.inj (hname.symm.trans hx.name)
            rw [hm] at hxm
            rw [hsame, Except.ok.inj hxm]
          · exact .inr ⟨i, hi, hx, hxm⟩
    · refine ⟨entries, 1 + k, hread.bind (by rw [if_neg hlive]; exact hreads) rfl, hdistinct,
        fun x => ?_⟩
      rw [hmem]
      constructor
      · rintro ⟨i, hi, hx⟩
        exact ⟨i, List.mem_cons_of_mem _ hi, hx⟩
      · rintro ⟨i, hi, hx, hxm⟩
        rcases List.mem_cons.mp hi with rfl | hi
        · exact absurd ⟨hx.live, hx.parent⟩ hlive
        · exact ⟨i, hi, hx, hxm⟩

end Programs

end GenericKernel.Fs

namespace GenericKernel.VfsCore

open GenericKernel.Lib Fs

/-! ## Sorting by names -/

theorem nameLe_trans (a b c : String) (hab : nameLe a b) (hbc : nameLe b c) : nameLe a c :=
  @Std.TransCmp.isLE_trans _ compareNames _ a b c hab hbc

theorem nameLe_total (a b : String) : nameLe a b || nameLe b a := by
  unfold nameLe
  rw [@Std.OrientedCmp.eq_swap _ compareNames _ b a]
  cases compareNames a b <;> rfl

/-- Sorting entries with different names puts them in strict order. -/
theorem mergeSort_names {entries : List DirEntry}
    (h : entries.Pairwise fun left right => left.name ≠ right.name) :
    (entries.mergeSort fun left right => nameLe left.name right.name).Pairwise
      fun left right => compareNames left.name right.name = .lt := by
  have hsorted := @List.pairwise_mergeSort _ (fun left right : DirEntry => nameLe left.name right.name)
    (fun a b c => nameLe_trans a.name b.name c.name) (fun a b => nameLe_total a.name b.name) entries
  have hne := (List.Perm.pairwise_iff (fun hne => Ne.symm hne)
    (List.mergeSort_perm entries fun left right => nameLe left.name right.name)).mpr h
  refine (hsorted.and hne).imp fun {left right} hboth => ?_
  obtain ⟨hle, hne⟩ := hboth
  unfold nameLe at hle
  cases hcompare : compareNames left.name right.name with
  | lt => rfl
  | eq => exact absurd (Std.LawfulEqCmp.eq_of_compare hcompare) hne
  | gt =>
    rw [hcompare] at hle
    cases hle

/-! ## Looking -/

namespace GenericFs

section Looking

variable {fs : GenericFs} {T : Table} {parent inode : Nat} {name : String}
  (hlow : DATA_START ≤ fs.sectors) (hT : Shows fs.disk T)

theorem returns_of_reads {α : Type} {p : FsProg α} {k : Nat} {r : Except VfsError α}
    (h : Reads (perfect fs.sectors) k p fs.disk r) : fs.returns p = r := by
  have hrun : Runs (perfect fs.sectors) p fs.disk r fs.disk := h.runs trivial
  unfold returns
  rw [hrun.evaluate]

theorem metadata_outside (hout : ¬ InTable inode) :
    FileSystem.metadata fs inode = .error .notFound :=
  returns_of_reads (readInode_notFound hout).bind_error

include hlow hT

theorem metadata_inTable (hin : InTable inode) :
    FileSystem.metadata fs inode = recordMetadata inode (T inode) :=
  returns_of_reads (metadata_reads (E := perfect fs.sectors) trivial hlow hT hin)

/-- The live inodes are the live records. -/
theorem metadata_ok {m : Metadata} (h : FileSystem.metadata fs inode = .ok m) :
    InTable inode ∧ (T inode).kind ≠ 0 ∧ recordMetadata inode (T inode) = .ok m := by
  by_cases hin : InTable inode
  · rw [metadata_inTable hlow hT hin] at h
    refine ⟨hin, fun hdead => ?_, h⟩
    rw [recordMetadata_of_dead inode hdead] at h
    cases h
  · rw [metadata_outside hin] at h
    cases h

theorem metadata_inode {m : Metadata} (h : FileSystem.metadata fs inode = .ok m) :
    m.inode = inode := by
  obtain ⟨hin, hlive, hm⟩ := metadata_ok hlow hT h
  obtain ⟨m', hm', hinode, -⟩ := recordMetadata_of_live inode (hT.storable hin) hlive
  rw [hm'] at hm
  rw [← Except.ok.inj hm, hinode]

theorem kind_of_directory {m : Metadata} (h : FileSystem.metadata fs inode = .ok m) :
    m.kind = .directory ↔ (T inode).kind = 2 := by
  obtain ⟨hin, hlive, hm⟩ := metadata_ok hlow hT h
  obtain ⟨m', hm', -, hkind⟩ := recordMetadata_of_live inode (hT.storable hin) hlive
  rw [hm'] at hm
  rw [← Except.ok.inj hm, hkind]

variable (hnames : DistinctNames T)
include hnames

theorem lookup_eq (parent : Nat) (name : String) :
    (∃ i, IsChild T parent name i ∧ FileSystem.lookup fs parent name = .ok i) ∨
      (∀ i, ¬ IsChild T parent name i) ∧ FileSystem.lookup fs parent name = .error .notFound := by
  rcases findChild_reads (E := perfect fs.sectors) trivial hlow hT hnames.named parent name with
    ⟨i, hchild, hreads⟩ | ⟨hnone, k, hreads⟩
  · exact .inl ⟨i, hchild, returns_of_reads hreads⟩
  · exact .inr ⟨hnone, returns_of_reads hreads⟩

theorem lookup_eq_ok {i : Nat} : FileSystem.lookup fs parent name = .ok i ↔ IsChild T parent name i := by
  rcases lookup_eq hlow hT hnames parent name with ⟨j, hchild, heq⟩ | ⟨hnone, heq⟩
  · rw [heq]
    constructor
    · intro h
      exact Except.ok.inj h ▸ hchild
    · intro h
      rw [hnames.unique.child hchild h]
  · rw [heq]
    exact ⟨(fun h => nomatch h), fun h => absurd h (hnone i)⟩

/-- Children are live. -/
theorem metadata_of_lookup {i : Nat} (h : FileSystem.lookup fs parent name = .ok i) :
    ∃ m, FileSystem.metadata fs i = .ok m := by
  have hchild := (lookup_eq_ok hlow hT hnames).mp h
  have hin := inTable_of_mem hchild.number
  obtain ⟨m, hm, -⟩ := recordMetadata_of_live i (hT.storable hin) hchild.live
  exact ⟨m, by rw [metadata_inTable hlow hT hin, hm]⟩

theorem readDir_listing (hin : InTable inode) (hdir : (T inode).kind = 2) :
    ∃ entries, FileSystem.readDir fs inode = .ok entries ∧
      IsListing (fun n => ((graph fs).child inode n).bind (graph fs).info) entries := by
  obtain ⟨entries, k, hreads, hdistinct, hmem⟩ := listChildren_reads (E := perfect fs.sectors)
    trivial hlow hT hnames inode inodeNumbers (fun _ hi => hi) List.nodup_range'
  have hread := readInode_reads (E := perfect fs.sectors) (d := fs.disk) trivial hlow hin
  rw [hT inode hin] at hread
  have hkind : (T inode).nodeKind = .ok .directory := by
    rw [DiskInode.nodeKind, if_neg (by rw [hdir]; decide), if_pos hdir]
  have hnodeKind : Reads (perfect fs.sectors) 0 (ofExcept (T inode).nodeKind : FsProg NodeKind)
      fs.disk (.ok .directory) := by
    rw [hkind]
    exact Reads.ofExcept _
  refine ⟨entries.mergeSort fun left right => nameLe left.name right.name, ?_,
    mergeSort_names hdistinct, fun x => ?_⟩
  · have hlist : Reads (perfect fs.sectors) (k + 0) (do
        let entries ← listChildren inode inodeNumbers
        pure (entries.mergeSort fun left right => nameLe left.name right.name)) fs.disk
        (.ok (entries.mergeSort fun left right => nameLe left.name right.name)) :=
      hreads.bind (Reads.pure _) rfl
    exact returns_of_reads (p := Fs.readDir inode) (hread.bind (hnodeKind.bind hlist rfl) rfl)
  · rw [List.mem_mergeSort, hmem]
    show _ ↔ ((FileSystem.lookup fs inode x.name).toOption.bind fun i =>
      (FileSystem.metadata fs i).toOption) = some x.metadata
    rw [Option.bind_eq_some_iff]
    constructor
    · rintro ⟨i, hi, hchild, hm⟩
      refine ⟨i, toOption_eq_some.mpr ((lookup_eq_ok hlow hT hnames).mpr hchild),
        toOption_eq_some.mpr ?_⟩
      rw [metadata_inTable hlow hT (inTable_of_mem hi), hm]
    · rintro ⟨i, hi, hm⟩
      have hchild := (lookup_eq_ok hlow hT hnames).mp (toOption_eq_some.mp hi)
      have hm' := toOption_eq_some.mp hm
      rw [metadata_inTable hlow hT (inTable_of_mem hchild.number)] at hm'
      exact ⟨i, hchild.number, hchild, hm'⟩

end Looking

end GenericFs

end GenericKernel.VfsCore
