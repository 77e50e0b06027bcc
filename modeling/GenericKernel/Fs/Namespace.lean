import GenericKernel.Fs.InodeTable

/-!
# The namespace: a tree of named records

`Names` says that the live records of a table form a tree below inode 1 with
valid names that are unique in each directory. From a disk that shows such a
table, `create` and `remove` do what `Created` and `Removed` say, and the table
they leave is such a tree again.

`create` takes any error of its lookup for "no such child", so its rule asks
that the lookup of a name that exists is not disturbed (`create_runsFrom`).
-/

namespace GenericKernel.Fs

open GenericKernel.Lib

/-! ## Names on disk -/

/-- A name of at most 63 bytes that is no path. -/
structure ValidName (name : String) : Prop where
  length : 1 ≤ (nameBytes name).length ∧ (nameBytes name).length ≤ MAX_DISK_NAME
  notDot : name ≠ "." ∧ name ≠ ".."
  noSlash : '/' ∉ name.toList
  noNul : '\x00' ∉ name.toList

theorem nameBytes_eq_nil {name : String} (h : (nameBytes name).length = 0) : name = "" := by
  have hdata : name.toByteArray.data = "".toByteArray.data := by
    refine Array.ext' ?_
    exact List.length_eq_zero_iff.mp h
  exact String.toByteArray_inj.mp (ByteArray.ext hdata)

theorem validateDiskName_eq_ok {name : String} :
    validateDiskName name = .ok () ↔ ValidName name := by
  unfold validateDiskName
  by_cases hbad : name = "" ∨ name = "." ∨ name = ".." ∨ '/' ∈ name.toList ∨ '\x00' ∈ name.toList
  · rw [if_pos hbad]
    refine ⟨(fun h => nomatch h), fun h => ?_⟩
    rcases hbad with rfl | hdot | hdots | hslash | hnul
    · exact absurd h.length.1 (by decide)
    · exact absurd hdot h.notDot.1
    · exact absurd hdots h.notDot.2
    · exact absurd hslash h.noSlash
    · exact absurd hnul h.noNul
  · rw [if_neg hbad]
    obtain ⟨hempty, hdot, hdots, hslash, hnul⟩ :
        name ≠ "" ∧ name ≠ "." ∧ name ≠ ".." ∧ '/' ∉ name.toList ∧ '\x00' ∉ name.toList := by
      simpa only [not_or] using hbad
    by_cases hlong : (nameBytes name).length > MAX_DISK_NAME
    · rw [if_pos hlong]
      exact ⟨(fun h => nomatch h), fun h => absurd h.length.2 (Nat.not_le.mpr hlong)⟩
    · rw [if_neg hlong]
      refine ⟨fun _ => ⟨⟨?_, Nat.not_lt.mp hlong⟩, ⟨hdot, hdots⟩, hslash, hnul⟩, fun _ => rfl⟩
      exact Nat.pos_of_ne_zero fun h => hempty (nameBytes_eq_nil h)

/-- A name survives its way through the record. -/
theorem nameText_newEntry (parent : Nat) {name : String} (kind : UInt8) (h : ValidName name) :
    (newEntry parent name kind).nameText = .ok name := by
  have hlength : (newEntry parent name kind).nameLen.toNat = (nameBytes name).length :=
    UInt8.toNat_ofNat_of_lt' (lt_of_le_of_lt h.length.2 (by decide))
  have hfit : 0 + (nameBytes name).length ≤ 64 := by
    have := h.length.2
    have : MAX_DISK_NAME = 63 := rfl
    omega
  have hbytes := slice_splice DiskInode.empty.name hfit
  unfold slice at hbytes
  rw [List.drop_zero] at hbytes
  have hname : (newEntry parent name kind).name = splice DiskInode.empty.name 0 (nameBytes name) :=
    rfl
  unfold DiskInode.nameText
  rw [hlength, hname, hbytes]
  have hraw : (⟨(nameBytes name).toArray⟩ : ByteArray) = name.toByteArray := rfl
  rw [hraw, String.fromUTF8?, dif_pos name.isValidUTF8]
  rfl

theorem newEntry_storable (parent : Nat) {name : String} {kind : UInt8} (h : ValidName name)
    (hkind : kind ≤ 2) : (newEntry parent name kind).Storable := by
  refine ⟨?_, hkind⟩
  show (UInt8.ofNat (nameBytes name).length).toNat ≤ MAX_DISK_NAME
  rw [UInt8.toNat_ofNat_of_lt' (lt_of_le_of_lt h.length.2 (by decide))]
  exact h.length.2

/-! ## The tree -/

/-- Following parents from a live record reaches inode 1. -/
inductive Reaches (T : Table) : Nat → Prop
  | root : Reaches T 1
  | child {i : Nat} : i ∈ inodeNumbers → (T i).kind ≠ 0 → Reaches T (T i).parent.toNat →
      Reaches T i

/-- Live records in one directory have different names. -/
def UniqueNames (T : Table) : Prop :=
  ∀ i ∈ inodeNumbers, ∀ j ∈ inodeNumbers, (T i).kind ≠ 0 → (T j).kind ≠ 0 →
    (T i).parent = (T j).parent → (T i).nameText = (T j).nameText → i = j

/-- The live records form a tree of uniquely named nodes. -/
structure Names (T : Table) : Prop where
  root : (T 1).kind = 2
  parent : ∀ i ∈ inodeNumbers, (T i).kind ≠ 0 →
    InTable (T i).parent.toNat ∧ (T (T i).parent.toNat).kind = 2
  reaches : ∀ i ∈ inodeNumbers, (T i).kind ≠ 0 → Reaches T i
  name : ∀ i ∈ inodeNumbers, (T i).kind ≠ 0 → ∃ s, (T i).nameText = .ok s ∧ ValidName s
  unique : UniqueNames T

/-- The names of live records decode. -/
def Named (T : Table) : Prop :=
  ∀ i ∈ inodeNumbers, (T i).kind ≠ 0 → ∃ s, (T i).nameText = .ok s

theorem Names.named {T : Table} (h : Names T) : Named T := by
  intro i hi hlive
  obtain ⟨s, hs, _⟩ := h.name i hi hlive
  exact ⟨s, hs⟩

/-- The live record `i` is the child `name` of `parent`. -/
structure IsChild (T : Table) (parent : Nat) (name : String) (i : Nat) : Prop where
  number : i ∈ inodeNumbers
  live : (T i).kind ≠ 0
  parent : (T i).parent.toNat = parent
  name : (T i).nameText = .ok name

section Update

variable {T : Table} {inode : Nat} {e : DiskInode}

/-- A path that does not run through `inode` survives a change there. -/
theorem Reaches.update {j : Nat} (h : Reaches T j) (hne : j ≠ inode)
    (hleaf : ∀ i ∈ inodeNumbers, (T i).kind ≠ 0 → (T i).parent.toNat ≠ inode) :
    Reaches (Function.update T inode e) j := by
  induction h with
  | root => exact .root
  | @child i hi hlive _ ih =>
      have hsame : Function.update T inode e i = T i := Function.update_of_ne hne _ _
      refine .child hi (by rw [hsame]; exact hlive) ?_
      rw [hsame]
      exact ih (hleaf i hi hlive)

/-- No record points to an unused one. -/
theorem Names.leaf_of_unused (h : Names T) (hfree : (T inode).kind = 0) :
    ∀ i ∈ inodeNumbers, (T i).kind ≠ 0 → (T i).parent.toNat ≠ inode := by
  intro i hi hlive hparent
  have hkind := (h.parent i hi hlive).2
  rw [hparent, hfree] at hkind
  exact absurd hkind (by decide)

theorem UniqueNames.congr {T' : Table} (h : UniqueNames T)
    (hsame : ∀ i ∈ inodeNumbers, (T' i).kind ≠ 0 →
      (T i).kind ≠ 0 ∧ (T' i).parent = (T i).parent ∧ (T' i).nameText = (T i).nameText) :
    UniqueNames T' := by
  intro i hi j hj hlive hlive' hp hn
  obtain ⟨hlive, hparent, hname⟩ := hsame i hi hlive
  obtain ⟨hlive', hparent', hname'⟩ := hsame j hj hlive'
  rw [hparent, hparent'] at hp
  rw [hname, hname'] at hn
  exact h i hi j hj hlive hlive' hp hn

/-- A record that is free of name clashes. -/
theorem UniqueNames.insert (h : UniqueNames T)
    (hclash : ∀ j ∈ inodeNumbers, j ≠ inode → (T j).kind ≠ 0 → e.parent = (T j).parent →
      e.nameText ≠ (T j).nameText) : UniqueNames (Function.update T inode e) := by
  have hself : Function.update T inode e inode = e := Function.update_self _ _ _
  have hother : ∀ i, i ≠ inode → Function.update T inode e i = T i :=
    fun i hne => Function.update_of_ne hne _ _
  intro i hi j hj hlive hlive' hp hn
  by_cases hieq : i = inode
  · by_cases hjeq : j = inode
    · rw [hieq, hjeq]
    · rw [hother j hjeq] at hlive' hp hn
      rw [hieq, hself] at hp hn
      exact absurd hn (hclash j hj hjeq hlive' hp)
  · by_cases hjeq : j = inode
    · rw [hother i hieq] at hlive hp hn
      rw [hjeq, hself] at hp hn
      exact absurd hn.symm (hclash i hi hieq hlive hp.symm)
    · rw [hother i hieq] at hlive hp hn
      rw [hother j hjeq] at hlive' hp hn
      exact h i hi j hj hlive hlive' hp hn

/-- Records that keep kind, parent and name keep the tree. -/
theorem Names.congr {T' : Table} (h : Names T) (hkind : ∀ i, InTable i → (T' i).kind = (T i).kind)
    (hparent : ∀ i, InTable i → (T' i).parent = (T i).parent)
    (hname : ∀ i, InTable i → (T' i).nameText = (T i).nameText) : Names T' := by
  have hreaches : ∀ i, Reaches T i → Reaches T' i := by
    intro i hr
    induction hr with
    | root => exact .root
    | @child i hi hlive _ ih =>
        have hin := inTable_of_mem hi
        refine .child hi (by rw [hkind i hin]; exact hlive) ?_
        rw [hparent i hin]
        exact ih
  refine ⟨by rw [hkind 1 ⟨le_refl 1, by decide⟩]; exact h.root, fun i hi hlive => ?_,
    fun i hi hlive => ?_, fun i hi hlive => ?_, h.unique.congr fun i hi hlive => ?_⟩
  · have hin := inTable_of_mem hi
    rw [hkind i hin] at hlive
    obtain ⟨hup, hdir⟩ := h.parent i hi hlive
    rw [hparent i hin, hkind _ hup]
    exact ⟨hup, hdir⟩
  · rw [hkind i (inTable_of_mem hi)] at hlive
    exact hreaches i (h.reaches i hi hlive)
  · have hin := inTable_of_mem hi
    rw [hkind i hin] at hlive
    rw [hname i hin]
    exact h.name i hi hlive
  · have hin := inTable_of_mem hi
    rw [hkind i hin] at hlive
    exact ⟨hlive, hparent i hin, hname i hin⟩

/-- A new leaf below a directory keeps the tree. -/
theorem Names.insert (h : Names T) {parent : Nat} {name : String} (hi : inode ∈ inodeNumbers)
    (hfree : (T inode).kind = 0) (hin : InTable parent) (hdir : (T parent).kind = 2)
    (hparent : e.parent.toNat = parent) (hname : e.nameText = .ok name)
    (hvalid : ValidName name) (hnew : ∀ i, ¬ IsChild T parent name i) :
    Names (Function.update T inode e) := by
  have hleaf := h.leaf_of_unused hfree
  have hroot : inode ≠ 1 := by
    intro heq
    have := (mem_inodeNumbers.mp hi).1
    omega
  have hself : Function.update T inode e inode = e := Function.update_self _ _ _
  have hother : ∀ i, i ≠ inode → Function.update T inode e i = T i :=
    fun i hne => Function.update_of_ne hne _ _
  have hpne : parent ≠ inode := by
    intro heq
    rw [heq, hfree] at hdir
    exact absurd hdir (by decide)
  have hclash : ∀ j ∈ inodeNumbers, j ≠ inode → (T j).kind ≠ 0 → e.parent = (T j).parent →
      e.nameText ≠ (T j).nameText := by
    intro j hj _ hlive hp hn
    refine hnew j ⟨hj, hlive, ?_, ?_⟩
    · rw [← hp]
      exact hparent
    · rw [← hn]
      exact hname
  refine ⟨?_, fun i hi' hlive => ?_, fun i hi' hlive => ?_, fun i hi' hlive => ?_,
    h.unique.insert hclash⟩
  · rw [hother 1 (Ne.symm hroot)]
    exact h.root
  · by_cases heq : i = inode
    · rw [heq, hself, hparent, hother parent hpne]
      exact ⟨hin, hdir⟩
    · rw [hother i heq] at hlive ⊢
      rw [hother _ (hleaf i hi' hlive)]
      exact h.parent i hi' hlive
  · by_cases heq : i = inode
    · refine .child hi' hlive ?_
      rw [heq, hself, hparent]
      -- the parent was live before, or it is the root
      by_cases hone : parent = 1
      · rw [hone]
        exact .root
      · have hmem : parent ∈ inodeNumbers := mem_inodeNumbers.mpr
          ⟨by have := hin.1; omega, hin.2⟩
        refine (h.reaches parent hmem ?_).update hpne hleaf
        rw [hdir]
        decide
    · rw [hother i heq] at hlive
      exact (h.reaches i hi' hlive).update heq hleaf
  · by_cases heq : i = inode
    · rw [heq, hself]
      exact ⟨name, hname, hvalid⟩
    · rw [hother i heq] at hlive ⊢
      exact h.name i hi' hlive

/-- Removing a leaf keeps the tree. -/
theorem Names.erase (h : Names T) (hi : inode ∈ inodeNumbers) (hkind : e.kind = 0)
    (hleaf : ∀ i ∈ inodeNumbers, (T i).kind ≠ 0 → (T i).parent.toNat ≠ inode) :
    Names (Function.update T inode e) := by
  have hroot : inode ≠ 1 := by
    intro heq
    have := (mem_inodeNumbers.mp hi).1
    omega
  have hother : ∀ i, i ≠ inode → Function.update T inode e i = T i :=
    fun i hne => Function.update_of_ne hne _ _
  have hne : ∀ i, (Function.update T inode e i).kind ≠ 0 → i ≠ inode := by
    intro i hlive heq
    rw [heq, Function.update_self] at hlive
    exact hlive hkind
  refine ⟨?_, fun i hi' hlive => ?_, fun i hi' hlive => ?_, fun i hi' hlive => ?_,
    h.unique.congr fun i hi' hlive => ?_⟩
  · rw [hother 1 (Ne.symm hroot)]
    exact h.root
  · have hi := hne i hlive
    rw [hother i hi] at hlive ⊢
    rw [hother _ (hleaf i hi' hlive)]
    exact h.parent i hi' hlive
  · have hi := hne i hlive
    rw [hother i hi] at hlive
    exact (h.reaches i hi' hlive).update hi hleaf
  · have hi := hne i hlive
    rw [hother i hi] at hlive ⊢
    exact h.name i hi' hlive
  · have hi := hne i hlive
    rw [hother i hi] at hlive ⊢
    exact ⟨hlive, rfl, rfl⟩

end Update

/-! ## Lookup -/

section Programs

variable {E : Env Sector BlockError} {d : Disk} {T : Table} {parent : Nat} {name : String}

/-- A record yields itself if it is the child looked for. -/
theorem isChild_found {i b : Nat} (h : isChild parent name i (T i) = .ok (some b))
    (hi : i ∈ inodeNumbers) : b = i ∧ IsChild T parent name i := by
  unfold isChild at h
  by_cases hlive : (T i).kind ≠ 0 ∧ (T i).parent.toNat = parent
  · rw [if_pos hlive] at h
    cases hname : (T i).nameText with
    | error e =>
        rw [hname] at h
        cases h
    | ok text =>
        rw [hname] at h
        by_cases heq : text = name
        · have hsome : (if text = name then some i else none) = some b := Except.ok.inj h
          rw [if_pos heq] at hsome
          exact ⟨(Option.some.inj hsome).symm, hi, hlive.1, hlive.2, by rw [hname, heq]⟩
        · have hsome : (if text = name then some i else none) = some b := Except.ok.inj h
          rw [if_neg heq] at hsome
          cases hsome
  · rw [if_neg hlive] at h
    cases h

theorem isChild_of_isChild {i : Nat} (h : IsChild T parent name i) :
    isChild parent name i (T i) = .ok (some i) := by
  unfold isChild
  rw [if_pos ⟨h.live, h.parent⟩, h.name]
  exact congrArg Except.ok (if_pos rfl)

theorem Named.isChild_ok (hN : Named T) {i : Nat} (hi : i ∈ inodeNumbers) :
    ∃ result, isChild parent name i (T i) = .ok result := by
  unfold isChild
  by_cases hlive : (T i).kind ≠ 0 ∧ (T i).parent.toNat = parent
  · obtain ⟨text, htext⟩ := hN i hi hlive.1
    rw [if_pos hlive, htext]
    exact ⟨_, rfl⟩
  · rw [if_neg hlive]
    exact ⟨_, rfl⟩

/-- A directory has at most one child of a name. -/
theorem UniqueNames.child (h : UniqueNames T) {i j : Nat} (hi : IsChild T parent name i)
    (hj : IsChild T parent name j) : i = j := by
  refine h i hi.number j hj.number hi.live hj.live ?_ (hi.name.trans hj.name.symm)
  exact UInt64.toNat_inj.mp (hi.parent.trans hj.parent.symm)

/-- **Lookup** reads the records up to the child, or all of them. -/
theorem findChild_reads (hd : E.inv d) (hlow : DATA_START ≤ E.size) (hT : Shows d T)
    (hN : Named T) (parent : Nat) (name : String) :
    (∃ i, IsChild T parent name i ∧ Reads E (i - 1) (findChild parent name) d (.ok i)) ∨
    ((∀ i, ¬ IsChild T parent name i) ∧
      ∃ k, Reads E k (findChild parent name) d (.error .notFound)) := by
  have hscan := scan_reads hd hlow hT (isChild parent name) inodeNumbers
    fun i hi => inTable_of_mem hi
  obtain ⟨result, hresult⟩ := scanTable_ok (isChild parent name) T inodeNumbers
    fun i hi => hN.isChild_ok hi
  unfold findChild
  cases result with
  | some b =>
      obtain ⟨i, hle, hlt, hfound, _, hcost⟩ := scanTable_found hresult
      obtain ⟨rfl, hchild⟩ := isChild_found hfound (List.mem_range'_1.mpr ⟨hle, hlt⟩)
      have hcost' : scanCost (isChild parent name) T inodeNumbers = b - 1 := hcost
      rw [hresult, hcost'] at hscan
      exact .inl ⟨b, hchild, hscan.bind (Reads.pure b) rfl⟩
  | none =>
      rw [hresult] at hscan
      refine .inr ⟨fun i hchild => ?_, _, hscan.bind (Reads.throw _) rfl⟩
      have hnone := scanTable_none hresult i hchild.number
      rw [isChild_of_isChild hchild] at hnone
      cases hnone

/-- **`allocate_inode`** finds the first unused record. -/
theorem allocateInode_reads (hd : E.inv d) (hlow : DATA_START ≤ E.size) (hT : Shows d T) :
    (∃ i, IsLeast {i | i ∈ inodeNumbers ∧ (T i).kind = 0} i ∧
      ∃ k, Reads E k allocateInode d (.ok i)) ∨
    ((∀ i ∈ inodeNumbers, (T i).kind ≠ 0) ∧ ∃ k, Reads E k allocateInode d (.error .noSpace)) := by
  have hscan := scan_reads hd hlow hT isUnused inodeNumbers fun i hi => inTable_of_mem hi
  obtain ⟨result, hresult⟩ := scanTable_ok isUnused T inodeNumbers
    fun i _ => ⟨_, rfl⟩
  have hnone : ∀ i, isUnused i (T i) = .ok none → (T i).kind ≠ 0 := by
    intro i hi hfree
    have hsome : (if (T i).kind = 0 then some i else none) = none := Except.ok.inj hi
    rw [if_pos hfree] at hsome
    cases hsome
  unfold allocateInode
  cases result with
  | some b =>
      obtain ⟨i, hle, hlt, hfound, hbefore, _⟩ := scanTable_found hresult
      have hsome : (if (T i).kind = 0 then some i else none) = some b := Except.ok.inj hfound
      by_cases hfree : (T i).kind = 0
      · rw [if_pos hfree] at hsome
        obtain rfl : i = b := Option.some.inj hsome
        rw [hresult] at hscan
        refine .inl ⟨i, ⟨⟨List.mem_range'_1.mpr ⟨hle, hlt⟩, hfree⟩, fun j hj => ?_⟩, _,
          hscan.bind (Reads.pure i) rfl⟩
        by_contra hlt'
        exact hnone j (hbefore j (List.mem_range'_1.mp hj.1).1 (by omega)) hj.2
      · rw [if_neg hfree] at hsome
        cases hsome
  | none =>
      rw [hresult] at hscan
      exact .inr ⟨fun i hi => hnone i (scanTable_none hresult i hi), _,
        hscan.bind (Reads.throw _) rfl⟩

/-! ## Create and remove -/

/-- What `create` returns, and the disk it leaves. -/
inductive Created (d : Disk) (T : Table) (parent : Nat) (name : String) (kind : UInt8) :
    Except VfsError Nat → Disk → Prop
  | badName {e : VfsError} : validateDiskName name = .error e →
      Created d T parent name kind (.error e) d
  | badParent {e : VfsError} : ¬ (InTable parent ∧ (T parent).kind = 2) →
      Created d T parent name kind (.error e) d
  | taken {i : Nat} : IsChild T parent name i →
      Created d T parent name kind (.error .alreadyExists) d
  | full : (∀ i, ¬ IsChild T parent name i) → (∀ i ∈ inodeNumbers, (T i).kind ≠ 0) →
      Created d T parent name kind (.error .noSpace) d
  | done {i : Nat} : ValidName name → InTable parent → (T parent).kind = 2 →
      (∀ i, ¬ IsChild T parent name i) → IsLeast {i | i ∈ inodeNumbers ∧ (T i).kind = 0} i →
      Created d T parent name kind (.ok i) (putRecord d i (newEntry parent name kind))

/-- **`create`**, on paper. The parent's record is call `c`; the lookup of a name
that exists makes the calls up to the number of its inode. None of them may fail
as long as there is an unused record. -/
theorem create_runsFrom (hd : E.inv d) (hlow : DATA_START ≤ E.size) (hT : Shows d T) (hN : Named T)
    {c : Nat} {kind : UInt8}
    (hlookup : ∀ i, IsChild T parent name i → (∃ u ∈ inodeNumbers, (T u).kind = 0) →
      ∀ j, c < j → j < c + i → ¬ E.faults j)
    (hcommit : ∀ i, Created d T parent name kind (.ok i)
        (putRecord d i (newEntry parent name kind)) →
      E.inv (putRecord d i (newEntry parent name kind))) :
    ∃ r d', Created d T parent name kind r d' ∧
      RunsFrom E c (create parent name kind) d r d' := by
  unfold create
  cases hvalidate : validateDiskName name with
  | error e =>
      refine ⟨_, _, .badName hvalidate, ?_⟩
      exact (((Reads.ofExcept _).runs hd).bind_error : Runs E _ d _ d) c
  | ok u =>
      have hvalid : ValidName name := validateDiskName_eq_ok.mp hvalidate
      have hopen : Reads E 0 (ofExcept (Except.ok u) : FsProg Unit) d (.ok u) := Reads.ofExcept _
      by_cases hin : InTable parent
      · have hread := readInode_reads hd hlow hin
        rw [hT parent hin] at hread
        by_cases hdir : (T parent).kind = 2
        · have hkind : (T parent).nodeKind = .ok .directory := by
            rw [DiskInode.nodeKind, if_neg (by rw [hdir]; decide), if_pos hdir]
          have hnodeKind : Reads E 0 (ofExcept (Except.ok NodeKind.directory) : FsProg NodeKind) d
            (.ok NodeKind.directory) := Reads.ofExcept _
          -- what follows a lookup that found nothing
          have hnew : (∀ i, ¬ IsChild T parent name i) → ∃ r d',
              Created d T parent name kind r d' ∧ Runs E (do
                let inode ← allocateInode
                writeInode inode (newEntry parent name kind)
                pure inode) d r d' := by
            intro hnone
            rcases allocateInode_reads hd hlow hT with ⟨i, hleast, k, hreads⟩ | ⟨hall, k, hreads⟩
            · have hdone : Created d T parent name kind (.ok i)
                  (putRecord d i (newEntry parent name kind)) :=
                .done hvalid hin hdir hnone hleast
              refine ⟨_, _, hdone, (hreads.runs hd).bind ?_⟩
              exact (writeInode_runs hd hlow (inTable_of_mem hleast.1.1)
                (hcommit i hdone)).bind (Runs.pure i)
            · exact ⟨_, _, .full hnone hall, (hreads.runs hd).bind_error⟩
          rcases findChild_reads hd hlow hT hN parent name with
            ⟨i, hchild, hfind⟩ | ⟨hnone, k, hfind⟩
          · refine ⟨_, _, .taken hchild, ?_⟩
            refine hopen.bindFrom hd (hread.bindFrom hd ?_)
            rw [hkind]
            refine hnodeKind.bindFrom hd ?_
            refine hfind.observe_bindFrom (Runs.throw _ _) ?_
            intro ⟨j, hj, hlt, hfault⟩ e
            have := (mem_inodeNumbers.mp hchild.number).1
            rcases allocateInode_reads hd hlow hT with ⟨u, hleast, _⟩ | ⟨_, k, hreads⟩
            · exact absurd hfault (hlookup i hchild ⟨u, hleast.1⟩ j (by omega) (by omega))
            · exact Runs.of_fault ⟨j, hfault⟩ (hreads.runs hd).bind_error hd _ _
          · obtain ⟨r, d', hcreated, hruns⟩ := hnew hnone
            refine ⟨r, d', hcreated, ?_⟩
            refine hopen.bindFrom hd (hread.bindFrom hd ?_)
            rw [hkind]
            refine hnodeKind.bindFrom hd ?_
            exact hfind.observe_bindFrom (hruns _) fun _ _ => hruns
        · by_cases hfile : (T parent).kind = 1
          · have hkind : (T parent).nodeKind = .ok .file := if_pos hfile
            refine ⟨.error .notDirectory, _, .badParent fun h => hdir h.2, ?_⟩
            refine hopen.bindFrom hd (hread.bindFrom hd ?_)
            rw [hkind]
            exact (Reads.ofExcept _).bindFrom hd (Runs.throw _ _)
          · have hkind : (T parent).nodeKind = .error .notFound := by
              rw [DiskInode.nodeKind, if_neg hfile, if_neg hdir]
            refine ⟨.error .notFound, _, .badParent fun h => hdir h.2, ?_⟩
            refine hopen.bindFrom hd (hread.bindFrom hd ?_)
            rw [hkind]
            exact (((Reads.ofExcept _).runs hd).bind_error : Runs E _ d _ d) _
      · refine ⟨.error .notFound, _, .badParent fun h => hin h.1, ?_⟩
        refine hopen.bindFrom hd ?_
        exact (((readInode_notFound hin).runs hd).bind_error : Runs E _ d _ d) _

/-- What `remove` returns, and the disk it leaves. -/
inductive Removed (d : Disk) (T : Table) (parent : Nat) (name : String) :
    Except VfsError Unit → Disk → Prop
  | missing : (∀ i, ¬ IsChild T parent name i) → Removed d T parent name (.error .notFound) d
  | notEmpty {i j : Nat} : IsChild T parent name i → (T i).kind = 2 → j ∈ inodeNumbers →
      (T j).kind ≠ 0 → (T j).parent.toNat = i →
      Removed d T parent name (.error .directoryNotEmpty) d
  | done {i : Nat} : IsChild T parent name i →
      (∀ j ∈ inodeNumbers, (T j).kind ≠ 0 → (T j).parent.toNat ≠ i) →
      Removed d T parent name (.ok ()) (putRecord d i DiskInode.empty)

/-- **`remove`**, on paper. -/
theorem remove_runs (hd : E.inv d) (hlow : DATA_START ≤ E.size) (hT : Shows d T) (hN : Names T)
    (hcommit : ∀ i, Removed d T parent name (.ok ()) (putRecord d i DiskInode.empty) →
      E.inv (putRecord d i DiskInode.empty)) :
    ∃ r d', Removed d T parent name r d' ∧ Runs E (remove parent name) d r d' := by
  unfold remove
  rcases findChild_reads hd hlow hT hN.named parent name with ⟨i, hchild, hfind⟩ | ⟨hnone, k, hfind⟩
  · have hin := inTable_of_mem hchild.number
    have hread := readInode_reads hd hlow hin
    rw [hT i hin] at hread
    have hwrite : ∀ hleaf : ∀ j ∈ inodeNumbers, (T j).kind ≠ 0 → (T j).parent.toNat ≠ i,
        Runs E (writeInode i DiskInode.empty) d (.ok ()) (putRecord d i DiskInode.empty) :=
      fun hleaf => writeInode_runs hd hlow hin (hcommit i (.done hchild hleaf))
    by_cases hdir : (T i).kind = 2
    · have hscan := scan_reads hd hlow hT (isChildOf i) inodeNumbers fun j hj => inTable_of_mem hj
      obtain ⟨result, hresult⟩ := scanTable_ok (isChildOf i) T inodeNumbers
        fun j _ => ⟨_, rfl⟩
      rw [hresult] at hscan
      cases result with
      | some u =>
          obtain ⟨j, hle, hlt, hfound, _⟩ := scanTable_found hresult
          have hsome : (if (T j).kind ≠ 0 ∧ (T j).parent.toNat = i then some () else none) =
            some u := Except.ok.inj hfound
          by_cases hlive : (T j).kind ≠ 0 ∧ (T j).parent.toNat = i
          · refine ⟨_, _, .notEmpty hchild hdir (List.mem_range'_1.mpr ⟨hle, hlt⟩)
              hlive.1 hlive.2, (hfind.runs hd).bind ((hread.runs hd).bind ?_)⟩
            rw [if_pos hdir]
            exact (hscan.runs hd).bind (Runs.throw _)
          · rw [if_neg hlive] at hsome
            cases hsome
      | none =>
          have hleaf : ∀ j ∈ inodeNumbers, (T j).kind ≠ 0 → (T j).parent.toNat ≠ i := by
            intro j hj hlive hparent
            have hnone : (if (T j).kind ≠ 0 ∧ (T j).parent.toNat = i then some () else none) =
              none := Except.ok.inj (scanTable_none hresult j hj)
            rw [if_pos ⟨hlive, hparent⟩] at hnone
            cases hnone
          refine ⟨_, _, .done hchild hleaf, (hfind.runs hd).bind ((hread.runs hd).bind ?_)⟩
          rw [if_pos hdir]
          exact (hscan.runs hd).bind (hwrite hleaf)
    · -- a file: nothing can be below it
      have hleaf : ∀ j ∈ inodeNumbers, (T j).kind ≠ 0 → (T j).parent.toNat ≠ i := by
        intro j hj hlive hparent
        have hkind := (hN.parent j hj hlive).2
        rw [hparent] at hkind
        exact hdir hkind
      refine ⟨_, _, .done hchild hleaf, (hfind.runs hd).bind ((hread.runs hd).bind ?_)⟩
      rw [if_neg hdir]
      exact hwrite hleaf
  · exact ⟨_, _, .missing hnone, (hfind.runs hd).bind_error⟩

end Programs

end GenericKernel.Fs
