import GenericKernel.Fs.Extremes
import GenericKernel.Vfs.GenericBackend

/-!
# GenericFS keeps a tree

* `GenericFs.Sound` — the device holds a consistent filesystem.
* `child_eq_some`, `info_eq` — the graph of such a backend, in terms of its table; `graph_link` and
  `graph_unlink` — what one record more or less does to it.
* `GenericFs.Spared` — requests whose end can be rounded up, or that at least stay off the table.
* `GenericFs.spared_lawful` — so the backend keeps the contract of the VFS.
-/

namespace GenericKernel.Fs

open GenericKernel.Lib

/-- The byte of a kind in a record. -/
def kindByte : NodeKind → UInt8
  | .file => 1
  | .directory => 2

theorem kindByte_ne_zero (kind : NodeKind) : kindByte kind ≠ 0 := by
  cases kind <;> decide

theorem IsChild.congr {T T' : Table} {parent i : Nat} {name : String} (h : IsChild T parent name i)
    (hkind : (T' i).kind = (T i).kind) (hparent : (T' i).parent = (T i).parent)
    (hname : (T' i).nameText = (T i).nameText) : IsChild T' parent name i :=
  ⟨h.number, hkind ▸ h.live, hparent ▸ h.parent, hname ▸ h.name⟩

/-- The other records are what they were. -/
theorem isChild_update_of_ne {T : Table} {parent i j : Nat} {name : String} (hj : j ≠ i)
    (e : DiskInode) : IsChild (Function.update T i e) parent name j ↔ IsChild T parent name j := by
  have hsame := Function.update_of_ne hj e T
  constructor
  · exact fun h => h.congr (by rw [hsame]) (by rw [hsame]) (by rw [hsame])
  · exact fun h => h.congr (by rw [hsame]) (by rw [hsame]) (by rw [hsame])

/-- A file operation keeps kinds, parents and names. -/
theorem Stored.names {α : Type} {sectors inode offset : Nat} {d d' : Disk} {T : Table}
    {data : List UInt8} {newLen : UInt64} {value : α} {r : Except VfsError α}
    (h : Consistent sectors d T) (hrange : offset + data.length + SECTOR_SIZE - 1 < wordSize)
    (hnew : ∀ k, (T inode).len.toNat ≤ SECTOR_SIZE * k → offset + data.length ≤ SECTOR_SIZE * k →
      newLen.toNat ≤ SECTOR_SIZE * k)
    (hs : Stored sectors d T inode offset data newLen value r d') :
    ∃ T', Consistent sectors d' T' ∧ ∀ i, (T' i).kind = (T i).kind ∧ (T' i).parent = (T i).parent ∧
      (T' i).nameText = (T i).nameText := by
  cases hs with
  | notFile _ => exact ⟨T, h, fun _ => ⟨rfl, rfl, rfl⟩⟩
  | noRoom _ _ hcapacity =>
    exact ⟨T, h.dirty (@Capacity.differsIn (perfect sectors) _ _ _ _ _ _ hcapacity),
      fun _ => ⟨rfl, rfl, rfl⟩⟩
  | @done e d₁ hi hkind hcapacity =>
    obtain ⟨he, hroom, hold, hd⟩ := hcapacity.room h hrange hi hkind
    refine ⟨_, h.commitFile hi hkind he (hnew _ hold hroom) hd, fun i => ?_⟩
    obtain ⟨start, count, hsame⟩ := he.same
    by_cases heq : i = inode
    · rw [heq, Function.update_self, hsame]
      exact ⟨rfl, rfl, rfl⟩
    · rw [Function.update_of_ne heq]
      exact ⟨rfl, rfl, rfl⟩

/-- Whatever happens in the data area, the table stays. -/
theorem Consistent.dataArea {sectors : Nat} {d d' : Disk} {T : Table} (h : Consistent sectors d T)
    (hsame : ∀ s, s < DATA_START → d' s = d s) : Consistent sectors d' T where
  device := h.device
  superblock := (hsame 0 (by decide)).trans h.superblock
  shows := h.shows.congr fun s _ hs => hsame s hs
  names := h.names
  layout := h.layout

/-- A request that wraps keeps the table if the file has sectors to start from, on a device that
ends before the request does. -/
theorem Wraps.consistent {sectors inode : Nat} {d : Disk} {T : Table} {r : Request} (hw : Wraps r)
    (h : Consistent sectors d T) (hi : inode ∈ inodeNumbers) (hfile : (T inode).kind = 1)
    (hpos : 0 < (T inode).sectors) (hsmall : sectors ≤ 2 ^ 54) :
    Consistent sectors (step sectors d (r.op inode)) T := by
  obtain ⟨hlow, hhigh⟩ := h.layout.inside inode hi (hasExtent_of_pos hfile hpos)
  have hfar : SECTOR_SIZE * (sectors - (T inode).first) < r.offset := by
    have hlen := hw.typed.2
    have hwraps := hw.wraps
    have hstop : r.stop = r.offset + r.data.length := rfl
    have hsector : SECTOR_SIZE = 512 := rfl
    have hstart : DATA_START = 17 := rfl
    rw [hsector, wordSize] at hwraps
    rw [hsector]
    omega
  have heval := @Wraps.evaluate_past _ _ _ _ _ (sectors - (T inode).first) hw h hi hfile (by omega)
    (by omega) hfar
  rw [step_eq _ heval]
  exact h.dataArea fun s hs => patch_before d (lt_of_lt_of_le hs hlow)

end GenericKernel.Fs

namespace GenericKernel.VfsCore.GenericFs

open GenericKernel.Lib Fs

def Sound (fs : GenericFs) : Prop := ∃ T, Consistent fs.sectors fs.disk T

/-- A new node needs a name that fits into a record, and an unused record. -/
def Room (fs : GenericFs) (name : String) : Prop :=
  Fs.ValidName name ∧ ∃ T, Shows fs.disk T ∧ ∃ i ∈ inodeNumbers, (T i).kind = 0

/-- The end of a request can be rounded up, or is refused. -/
def Storable (_ : GenericFs) (_ stop : Nat) : Prop :=
  wordSize ≤ stop ∨ stop + SECTOR_SIZE - 1 < wordSize

/-- Whether a request up to byte `stop` leaves the table alone. If its end cannot be rounded up, no
sectors are allocated, and a file without any is taken to start at sector 0. -/
def Spared (fs : GenericFs) (inode stop : Nat) : Prop :=
  inode ∈ inodeNumbers → ∀ e, record fs.disk inode = .ok e → e.kind = 1 →
    wordSize ≤ stop ∨ stop + SECTOR_SIZE - 1 < wordSize ∨ 0 < e.sectors ∧ fs.sectors ≤ 2 ^ 54

/-- Metadata names the inode it was asked for, whatever is on the device. -/
theorem inode_of_metadata {fs : GenericFs} {i : Nat} {m : Metadata}
    (h : FileSystem.metadata fs i = .ok m) : m.inode = i := by
  have heval : (evaluate fs.sectors .outOfRange (Fs.metadata i) fs.disk).1 = .ok m := h
  unfold Fs.metadata at heval
  rw [evaluate_bind] at heval
  generalize evaluate fs.sectors .outOfRange (readInode i) fs.disk = result at heval
  obtain ⟨r, d⟩ := result
  cases r with
  | error e => cases heval
  | ok entry =>
    dsimp only at heval
    rw [evaluate_bind, evaluate_ofExcept] at heval
    cases hkind : entry.nodeKind with
    | error e =>
      rw [hkind] at heval
      cases heval
    | ok kind =>
      rw [hkind] at heval
      obtain rfl := Except.ok.inj heval
      rfl

/-! ## The graph of a consistent device -/

section Graph

variable {fs : GenericFs} {T : Table} {parent i : Nat} {name : String}
  (hC : Consistent fs.sectors fs.disk T)
include hC

theorem low_of_consistent : DATA_START ≤ fs.sectors := le_of_lt (Nat.lt_of_succ_lt hC.device.1)

theorem child_eq_some : (graph fs).child parent name = some i ↔ IsChild T parent name i :=
  toOption_eq_some.trans (lookup_eq_ok (low_of_consistent hC) hC.shows hC.names.distinct)

theorem child_eq_none : (graph fs).child parent name = none ↔ ∀ i, ¬ IsChild T parent name i := by
  rw [Option.eq_none_iff_forall_ne_some]
  exact forall_congr' fun i => not_congr (child_eq_some hC)

theorem info_of_inTable (hin : InTable i) :
    (graph fs).info i = (recordMetadata i (T i)).toOption :=
  congrArg Except.toOption (metadata_inTable (low_of_consistent hC) hC.shows hin)

omit hC in
theorem info_outside (hout : ¬ InTable i) : (graph fs).info i = none :=
  congrArg Except.toOption (metadata_outside hout)

theorem info_isSome : ((graph fs).info i).isSome ↔ InTable i ∧ (T i).kind ≠ 0 := by
  by_cases hin : InTable i
  · rw [info_of_inTable hC hin]
    by_cases hdead : (T i).kind = 0
    · rw [recordMetadata_of_dead i hdead]
      simp [Except.toOption, hdead]
    · obtain ⟨m, hm, -⟩ := recordMetadata_of_live i (hC.shows.storable hin) hdead
      rw [hm]
      exact ⟨fun _ => ⟨hin, hdead⟩, fun _ => rfl⟩
  · rw [info_outside hin]
    exact ⟨fun h => absurd h Bool.false_ne_true, fun h => absurd h.1 hin⟩

theorem graph_tree : (graph fs).Tree 1 where
  live := (info_isSome hC).mpr ⟨⟨le_refl 1, by decide⟩, by rw [hC.names.root]; decide⟩
  edge {p n i} hchild := by
    have hi := (child_eq_some hC).mp hchild
    obtain ⟨hin, hdir⟩ := hC.names.parent i hi.number hi.live
    rw [hi.parent] at hin hdir
    exact ⟨(info_isSome hC).mpr ⟨hin, by rw [hdir]; decide⟩,
      (info_isSome hC).mpr ⟨inTable_of_mem hi.number, hi.live⟩⟩
  parent_unique {p n p' n' i} hchild hchild' := by
    have hi := (child_eq_some hC).mp hchild
    have hi' := (child_eq_some hC).mp hchild'
    exact ⟨hi.parent.symm.trans hi'.parent, Except.ok.inj (hi.name.symm.trans hi'.name)⟩
  root_top p n hchild := by
    have hi := (child_eq_some hC).mp hchild
    have := (mem_inodeNumbers.mp hi.number).1
    omega

/-- Every live inode has a path. -/
theorem walk_of_live (hin : InTable i) (hlive : (T i).kind ≠ 0) :
    ∃ path, (graph fs).walk 1 path = some i := by
  have hreaches : Reaches T i := by
    by_cases hone : i = 1
    · rw [hone]
      exact .root
    · exact hC.names.reaches i (mem_inodeNumbers.mpr ⟨by have := hin.1; omega, hin.2⟩) hlive
  clear hin hlive
  induction hreaches with
  | root => exact ⟨[], rfl⟩
  | @child j hj hlive _ ih =>
    obtain ⟨path, hpath⟩ := ih
    obtain ⟨name, hname, -⟩ := hC.names.name j hj hlive
    refine ⟨path ++ [name], ?_⟩
    rw [NodeGraph.walk_concat, hpath]
    exact (child_eq_some hC).mpr ⟨hj, hlive, rfl, hname⟩

/-- Two devices whose records differ in one inode. -/
theorem graph_update {fs' : GenericFs} {e : DiskInode} (hi : InTable i)
    (hC' : Consistent fs'.sectors fs'.disk (Function.update T i e)) :
    (graph fs').info = Function.update (graph fs).info i (recordMetadata i e).toOption := by
  funext j
  by_cases hj : j = i
  · rw [hj, Function.update_self, info_of_inTable hC' hi, Function.update_self]
  · rw [Function.update_of_ne hj]
    by_cases hin : InTable j
    · rw [info_of_inTable hC' hin, info_of_inTable hC hin, Function.update_of_ne hj]
    · rw [info_outside hin, info_outside hin]

/-- A record for a new node. -/
theorem graph_link {fs' : GenericFs} {kind : NodeKind} (hi : i ∈ inodeNumbers)
    (hfree : (T i).kind = 0) (hparent : InTable parent) (hvalid : Fs.ValidName name)
    (hnone : ∀ j, ¬ IsChild T parent name j)
    (hC' : Consistent fs'.sectors fs'.disk
      (Function.update T i (newEntry parent name (kindByte kind)))) :
    graph fs' = (graph fs).link parent name i ⟨i, kind, 0⟩ := by
  have hself : Function.update T i (newEntry parent name (kindByte kind)) i =
      newEntry parent name (kindByte kind) := Function.update_self _ _ _
  have hup : (newEntry parent name (kindByte kind)).parent.toNat = parent := by
    refine UInt64.toNat_ofNat_of_lt' ?_
    have := hparent.2
    have : INODE_COUNT = 64 := rfl
    show parent < 2 ^ 64
    omega
  have hname := nameText_newEntry parent (kindByte kind) hvalid
  refine NodeGraph.ext ?_ ?_
  · funext p n
    refine Option.ext fun j => ?_
    rw [child_eq_some hC', NodeGraph.child_link]
    by_cases hj : j = i
    · subst hj
      by_cases hedge : p = parent ∧ n = name
      · obtain ⟨rfl, rfl⟩ := hedge
        rw [if_pos ⟨rfl, rfl⟩]
        refine ⟨fun _ => rfl, fun _ => ⟨hi, ?_, ?_, ?_⟩⟩
        · rw [hself]
          exact kindByte_ne_zero kind
        · rw [hself, hup]
        · rw [hself, hname]
      · rw [if_neg hedge, child_eq_some hC]
        constructor
        · intro h
          have h₁ := h.parent
          have h₂ := h.name
          rw [hself] at h₁ h₂
          exact absurd ⟨h₁.symm.trans hup, Except.ok.inj (h₂.symm.trans hname)⟩ hedge
        · intro h
          exact absurd hfree h.live
    · rw [isChild_update_of_ne hj]
      by_cases hedge : p = parent ∧ n = name
      · obtain ⟨rfl, rfl⟩ := hedge
        rw [if_pos ⟨rfl, rfl⟩]
        refine ⟨fun h => absurd h (hnone j), fun h => ?_⟩
        exact absurd (Option.some.inj h).symm hj
      · rw [if_neg hedge, child_eq_some hC]
  · rw [graph_update hC (inTable_of_mem hi) hC']
    congr 1
    cases kind <;> rfl

/-- A record cleared. -/
theorem graph_unlink {fs' : GenericFs} (hchild : IsChild T parent name i)
    (hC' : Consistent fs'.sectors fs'.disk (Function.update T i DiskInode.empty)) :
    graph fs' = (graph fs).unlink parent name i := by
  refine NodeGraph.ext ?_ ?_
  · funext p n
    refine Option.ext fun j => ?_
    rw [child_eq_some hC', NodeGraph.child_unlink]
    by_cases hj : j = i
    · subst hj
      refine ⟨fun h => ?_, fun h => ?_⟩
      · have hlive := h.live
        rw [Function.update_self] at hlive
        exact absurd rfl hlive
      · by_cases hedge : p = parent ∧ n = name
        · rw [if_pos hedge] at h
          cases h
        · rw [if_neg hedge, child_eq_some hC] at h
          exact absurd ⟨h.parent.symm.trans hchild.parent,
            Except.ok.inj (h.name.symm.trans hchild.name)⟩ hedge
    · rw [isChild_update_of_ne hj]
      by_cases hedge : p = parent ∧ n = name
      · obtain ⟨rfl, rfl⟩ := hedge
        rw [if_pos ⟨rfl, rfl⟩]
        refine ⟨fun h => absurd (hC.names.unique.child h hchild) hj, (fun h => nomatch h)⟩
      · rw [if_neg hedge, child_eq_some hC]
  · rw [graph_update hC (inTable_of_mem hchild.number) hC']
    rfl

end Graph

/-! ## The contract -/

section Contract

variable {fs : GenericFs} {T : Table} {p i : Nat} {n : String} {m : Metadata}

/-- A disk after an operation. -/
theorem performs_eq {α : Type} {prog : FsProg α} {r : Except VfsError α} {d : Disk}
    (h : evaluate fs.sectors .outOfRange prog fs.disk = (r, d)) :
    fs.performs prog = (r, { fs with disk := d }) := by
  unfold performs
  rw [h]

theorem creates_of_sound (hC : Consistent fs.sectors fs.disk T) (kind : NodeKind)
    (hm : FileSystem.metadata fs p = .ok m) (hdir : m.kind = .directory) :
    Creates Sound Room fs p n kind (fs.performs (create p n (kindByte kind))) := by
  have hlow := low_of_consistent hC
  obtain ⟨hin, -, -⟩ := metadata_ok hlow hC.shows hm
  have hkind := (kind_of_directory hlow hC.shows hm).mp hdir
  obtain ⟨r, d, hcreated, heval⟩ := create_evaluate hC p n (kindByte kind)
  rw [performs_eq heval]
  cases hcreated with
  | @badName e hbad =>
    -- no record has such a name
    refine .refused ((child_eq_none hC).mpr fun j hj => ?_) fun hroom => ?_
    · obtain ⟨s, hs, hvalid⟩ := hC.names.name j hj.number hj.live
      obtain rfl : s = n := Except.ok.inj (hs.symm.trans hj.name)
      rw [validateDiskName_eq_ok.mpr hvalid] at hbad
      cases hbad
    · rw [validateDiskName_eq_ok.mpr hroom.1] at hbad
      cases hbad
  | badParent hbad => exact absurd ⟨hin, hkind⟩ hbad
  | taken hchild => exact .taken ((child_eq_some hC).mpr hchild)
  | full hnone hfull =>
    refine .refused ((child_eq_none hC).mpr hnone) ?_
    rintro ⟨-, T', hT', j, hj, hfree⟩
    rw [hT'.unique hC.shows (inTable_of_mem hj)] at hfree
    exact hfull j hj hfree
  | @done j hvalid _ _ hnone hleast =>
    have hbyte : kindByte kind = 1 ∨ kindByte kind = 2 := by
      cases kind
      · exact .inl rfl
      · exact .inr rfl
    have hC' := hC.create hbyte hvalid hin hkind hnone hleast.1.1 hleast.1.2
    have hdead : (graph fs).info j = none := by
      rw [← Option.not_isSome_iff_eq_none, info_isSome hC]
      exact fun h => h.2 hleast.1.2
    exact .linked ((child_eq_none hC).mpr hnone) hdead ⟨hvalid, T, hC.shows, j, hleast.1⟩ ⟨_, hC'⟩ rfl
      (graph_link hC hleast.1.1 hleast.1.2 hin hvalid hnone hC')

theorem removes_of_sound (hC : Consistent fs.sectors fs.disk T) (p : Nat) (n : String) :
    Removes Sound fs p n (fs.performs (Fs.remove p n)) := by
  obtain ⟨r, d, hremoved, heval⟩ := remove_evaluate hC p n
  rw [performs_eq heval]
  cases hremoved with
  | missing hnone => exact .missing ((child_eq_none hC).mpr hnone)
  | @notEmpty j k hchild hdir hk hlive hparent =>
    obtain ⟨s, hs, -⟩ := hC.names.name k hk hlive
    have hbelow : (graph fs).child j s = some k := (child_eq_some hC).mpr ⟨hk, hlive, hparent, hs⟩
    exact .notEmpty ((child_eq_some hC).mpr hchild) (by rw [hbelow]; simp)
  | @done j hchild hleaf =>
    have hC' := hC.remove hchild.number hleaf
    refine .unlinked ((child_eq_some hC).mpr hchild) (fun s => (child_eq_none hC).mpr fun k hk => ?_)
      ⟨_, hC'⟩ rfl (graph_unlink hC hchild hC')
    exact hleaf k hk.number hk.live hk.parent

/-- Tables with the same kinds, parents and names. -/
theorem sameNames_of_tables {fs' : GenericFs} {T' : Table} (hC : Consistent fs.sectors fs.disk T)
    (hC' : Consistent fs'.sectors fs'.disk T')
    (hsame : ∀ i, (T' i).kind = (T i).kind ∧ (T' i).parent = (T i).parent ∧
      (T' i).nameText = (T i).nameText) : SameNames fs fs' := by
  refine ⟨rfl, ?_, fun j => ?_⟩
  · funext q s
    refine Option.ext fun j => ?_
    rw [child_eq_some hC', child_eq_some hC]
    obtain ⟨hkind, hparent, hname⟩ := hsame j
    exact ⟨fun h => h.congr hkind.symm hparent.symm hname.symm, fun h => h.congr hkind hparent hname⟩
  · by_cases hin : InTable j
    · rw [info_of_inTable hC' hin, info_of_inTable hC hin]
      unfold recordMetadata DiskInode.nodeKind
      rw [(hsame j).1]
      split
      · rfl
      · split <;> rfl
    · rw [info_outside hin, info_outside hin]

/-- A request, by its end: it is refused, or it keeps the names. -/
theorem stores_of_sound {r : Request} (hsound : Sound fs) (htyped : r.Typed)
    (hstop : Spared fs i r.stop) :
    Sound ⟨fs.sectors, step fs.sectors fs.disk (r.op i)⟩ ∧
      SameNames fs ⟨fs.sectors, step fs.sectors fs.disk (r.op i)⟩ := by
  obtain ⟨T, hC⟩ := hsound
  suffices hnames : ∃ T', Consistent fs.sectors (step fs.sectors fs.disk (r.op i)) T' ∧
      ∀ j, (T' j).kind = (T j).kind ∧ (T' j).parent = (T j).parent ∧
        (T' j).nameText = (T j).nameText by
    obtain ⟨T', hC', hsame⟩ := hnames
    exact ⟨⟨T', hC'⟩, @sameNames_of_tables fs T ⟨_, _⟩ T' hC hC' hsame⟩
  have hrefl : ∀ j, (T j).kind = (T j).kind ∧ (T j).parent = (T j).parent ∧
      (T j).nameText = (T j).nameText := fun _ => ⟨rfl, rfl, rfl⟩
  by_cases hfile : i ∈ inodeNumbers ∧ (T i).kind = 1
  · obtain ⟨hi, hfile⟩ := hfile
    have hspared := hstop hi (T i) (hC.shows i (inTable_of_mem hi)) hfile
    by_cases hover : wordSize ≤ r.stop
    · rw [step_eq _ (Request.evaluate_overflow hC hi hfile htyped hover)]
      exact ⟨T, hC, hrefl⟩
    by_cases hrange : r.stop + SECTOR_SIZE - 1 < wordSize
    · cases r with
      | write offset data =>
        obtain ⟨_, hstored, _⟩ := step_does (.write i offset data) hC hrange
        exact Stored.names hC hrange (write_newLen_le hrange) hstored
      | truncate len =>
        obtain ⟨_, hstored, _⟩ := step_does (.truncate i len) hC hrange
        exact Stored.names hC hrange (truncate_newLen_le hrange) hstored
    · have hw : Wraps r := ⟨htyped, Nat.not_le.mp hover, Nat.not_lt.mp hrange⟩
      obtain ⟨hpos, hsmall⟩ := (hspared.resolve_left hover).resolve_left hrange
      exact ⟨T, hw.consistent hC hi hfile hpos hsmall, hrefl⟩
  · rw [Request.step_notFile hC hfile]
    exact ⟨T, hC, hrefl⟩

theorem readDir_of_file (hC : Consistent fs.sectors fs.disk T) (hin : InTable p)
    (hkind : (T p).kind = 1) : FileSystem.readDir fs p = .error .notDirectory := by
  have hread := readInode_reads (E := perfect fs.sectors) (d := fs.disk) trivial
    (low_of_consistent hC) hin
  rw [hC.shows p hin] at hread
  have hnodeKind : Reads (perfect fs.sectors) 0 (ofExcept (T p).nodeKind : FsProg NodeKind) fs.disk
      (.ok .file) := by
    rw [show (T p).nodeKind = .ok .file from if_pos hkind]
    exact Reads.ofExcept _
  exact returns_of_reads (p := Fs.readDir p) (hread.bind (hnodeKind.bind (Reads.throw _) rfl) rfl)

/-- **The contract of the VFS.** A lookup in a file finds nothing. -/
theorem spared_lawful : Lawful GenericFs Sound (fun _ => .notFound) Room Spared where
  tree := fun ⟨_, hC⟩ => graph_tree hC
  root := fun {fs} ⟨T, hC⟩ => by
    have hin : InTable 1 := ⟨le_refl 1, by decide⟩
    obtain ⟨m, hm, -, hkind⟩ := recordMetadata_of_live 1 (hC.shows.storable hin)
      (by rw [hC.names.root]; decide)
    exact ⟨m, (metadata_inTable (low_of_consistent hC) hC.shows hin).trans hm, hkind.mpr hC.names.root⟩
  inode := inode_of_metadata
  childless := fun {fs p i n m} ⟨T, hC⟩ hm hfile hlookup => by
    have hchild := (lookup_eq_ok (low_of_consistent hC) hC.shows hC.names.distinct).mp hlookup
    have hdir := (hC.names.parent i hchild.number hchild.live).2
    rw [hchild.parent] at hdir
    rw [(kind_of_directory (low_of_consistent hC) hC.shows hm).mpr hdir] at hfile
    cases hfile
  miss := fun {fs p n m e} ⟨T, hC⟩ _ _ hlookup => by
    rcases lookup_eq (low_of_consistent hC) hC.shows hC.names.distinct p n with
      ⟨i, -, heq⟩ | ⟨-, heq⟩
    · rw [heq] at hlookup
      cases hlookup
    · rw [heq] at hlookup
      rw [← Except.error.inj hlookup, ite_self]
  readDir_file := fun {fs p m} ⟨T, hC⟩ hm hfile => by
    obtain ⟨hin, hlive, hm'⟩ := metadata_ok (low_of_consistent hC) hC.shows hm
    refine readDir_of_file hC hin ?_
    by_contra hkind
    unfold recordMetadata DiskInode.nodeKind at hm'
    rw [if_neg hkind] at hm'
    split at hm'
    · obtain rfl := Except.ok.inj hm'
      cases hfile
    · cases hm'
  readDir := fun {fs p m} ⟨T, hC⟩ hm hdir => by
    have hlow := low_of_consistent hC
    obtain ⟨hin, -, -⟩ := metadata_ok hlow hC.shows hm
    exact readDir_listing hlow hC.shows hC.names.distinct hin
      ((kind_of_directory hlow hC.shows hm).mp hdir)
  createFile := fun ⟨_, hC⟩ _ hm hdir => creates_of_sound hC .file hm hdir
  createDir := fun ⟨_, hC⟩ _ hm hdir => creates_of_sound hC .directory hm hdir
  remove := fun {fs p n m} ⟨_, hC⟩ _ _ _ => removes_of_sound hC p n
  write := fun {fs i offset data} hsound hoffset hdata hstop =>
    stores_of_sound (r := .write offset data) hsound ⟨hoffset, hdata⟩ hstop
  truncate := fun {fs i len} hsound hlen hstop =>
    stores_of_sound (r := .truncate len) hsound ⟨hlen, show 0 < 2 ^ 63 by decide⟩ hstop

/-- The same without a look at the device. -/
theorem lawful : Lawful GenericFs Sound (fun _ => .notFound) Room Storable :=
  spared_lawful.restrict fun _ _ _ hstop _ _ _ _ => or_assoc.mp (.inl hstop)

end Contract

end GenericKernel.VfsCore.GenericFs
