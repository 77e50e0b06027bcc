import GenericKernel.Fs.GenericFs

/-!
# The inode table as an array of records

* **codec** — decoding inverts encoding (`decodeInode_encodeInode`);
* **records** — `record d i` is what `read_inode` finds; `putRecord` is what
  `write_inode` leaves: one record changes, the others and all sectors outside
  the table do not;
* **scans** — a scan of the records is the pure function `scanTable` of the
  table, and costs as many reads as records looked at.
-/

namespace GenericKernel.Fs

open GenericKernel.Lib

/-! ## Codec -/

/-- A value that the on-disk format can hold. -/
def DiskInode.Storable (e : DiskInode) : Prop := e.nameLen.toNat ≤ MAX_DISK_NAME ∧ e.kind ≤ 2

theorem length_encodeInode (e : DiskInode) : (encodeInode e).length = INODE_SIZE := by
  simp [encodeInode, INODE_SIZE]

/-- A field in the middle of an encoding. -/
theorem take_drop_append {before field after : List UInt8} {k n : Nat} (hk : before.length = k)
    (hn : field.length = n) : ((before ++ (field ++ after)).drop k).take n = field := by
  rw [← hk, List.drop_left, ← hn, List.take_left]

theorem readU64_append {before after : List UInt8} {k : Nat} (hk : before.length = k)
    (v : UInt64) : readU64 (before ++ (leBytes 8 v.toNat ++ after)) k = v := by
  unfold readU64
  rw [take_drop_append hk (length_leBytes 8 _), leUInt64_leBytes]

theorem readU32_append {before after : List UInt8} {k : Nat} (hk : before.length = k)
    (v : UInt32) : readU32 (before ++ (leBytes 4 v.toNat ++ after)) k = v := by
  unfold readU32
  rw [take_drop_append hk (length_leBytes 4 _), leUInt32_leBytes]

variable {i inode : Nat} {value : DiskInode} {d' : Disk} {T : Table} {β : Type}

section Fields

variable (e : DiskInode)

/-- The parent is read back from its place in the encoding. -/
theorem encodeInode_parent : readU64 (encodeInode e) 4 = e.parent := by
  have := @readU64_append [e.kind, 0, e.nameLen, 0]
    (leBytes 8 e.len.toNat ++ leBytes 8 e.startSector.toNat ++ leBytes 4 e.sectorCount.toNat ++
      e.name.toList ++ List.replicate 32 0) 4 rfl e.parent
  simpa [encodeInode] using this

theorem encodeInode_len : readU64 (encodeInode e) 12 = e.len := by
  have := @readU64_append ([e.kind, 0, e.nameLen, 0] ++ leBytes 8 e.parent.toNat)
    (leBytes 8 e.startSector.toNat ++ leBytes 4 e.sectorCount.toNat ++
      e.name.toList ++ List.replicate 32 0) 12 (by simp) e.len
  simpa [encodeInode] using this

theorem encodeInode_startSector : readU64 (encodeInode e) 20 = e.startSector := by
  have := @readU64_append ([e.kind, 0, e.nameLen, 0] ++ leBytes 8 e.parent.toNat ++
      leBytes 8 e.len.toNat) (leBytes 4 e.sectorCount.toNat ++
      e.name.toList ++ List.replicate 32 0) 20 (by simp) e.startSector
  simpa [encodeInode] using this

theorem encodeInode_sectorCount : readU32 (encodeInode e) 28 = e.sectorCount := by
  have := @readU32_append ([e.kind, 0, e.nameLen, 0] ++ leBytes 8 e.parent.toNat ++
      leBytes 8 e.len.toNat ++ leBytes 8 e.startSector.toNat)
    (e.name.toList ++ List.replicate 32 0) 28 (by simp) e.sectorCount
  simpa [encodeInode] using this

theorem encodeInode_name (hi : i < 64) : (encodeInode e).getD (32 + i) 0 = e.name[i] := by
  have hlen : ([e.kind, 0, e.nameLen, 0] ++ leBytes 8 e.parent.toNat ++
      leBytes 8 e.len.toNat ++ leBytes 8 e.startSector.toNat ++
      leBytes 4 e.sectorCount.toNat).length = 32 := by simp
  unfold encodeInode
  rw [List.getD_eq_getElem?_getD, List.append_assoc _ e.name.toList,
    List.getElem?_append_right (by rw [hlen]; omega), hlen, Nat.add_sub_cancel_left,
    List.getElem?_append_left (by rw [Vector.length_toList]; exact hi),
    Vector.getElem?_toList, Vector.getElem?_eq_getElem hi]
  rfl

end Fields

/-- **Decoding inverts encoding.** -/
theorem decodeInode_encodeInode {e : DiskInode} (h : e.Storable) :
    decodeInode (encodeInode e) = .ok e := by
  unfold decodeInode
  have hname : (Vector.ofFn fun i : Fin 64 => (encodeInode e).getD (32 + i.val) 0) = e.name := by
    refine Vector.ext fun i hi => ?_
    rw [Vector.getElem_ofFn]
    exact encodeInode_name e hi
  have hentry : (⟨(encodeInode e).getD 0 0, (encodeInode e).getD 2 0, readU64 (encodeInode e) 4,
      readU64 (encodeInode e) 12, readU64 (encodeInode e) 20, readU32 (encodeInode e) 28,
      Vector.ofFn fun i : Fin 64 => (encodeInode e).getD (32 + i.val) 0⟩ : DiskInode) = e := by
    rw [hname, encodeInode_parent, encodeInode_len, encodeInode_startSector,
      encodeInode_sectorCount]
    rfl
  simp only [hentry]
  refine if_neg ?_
  intro hbad
  rcases hbad with hbad | hbad
  · exact Nat.not_lt.mpr h.1 hbad
  · exact absurd h.2 (UInt8.not_le.mpr hbad)

/-- What decodes can be stored. -/
theorem storable_of_decodeInode {raw : List UInt8} {e : DiskInode}
    (h : decodeInode raw = .ok e) : e.Storable := by
  unfold decodeInode at h
  dsimp only at h
  split at h
  · cases h
  · rename_i hgood
    obtain rfl := Except.ok.inj h
    rw [not_or] at hgood
    exact ⟨Nat.not_lt.mp hgood.1, UInt8.not_lt.mp hgood.2⟩

/-! ## Records -/

/-- The numbers of the table's records. -/
def InTable (inode : Nat) : Prop := 1 ≤ inode ∧ inode ≤ INODE_COUNT

theorem inodeIndex_of_inTable (h : InTable inode) : inodeIndex inode = .ok (inode - 1) := by
  obtain ⟨h₁, h₂⟩ := h
  unfold inodeIndex
  rw [if_neg (by omega), if_neg (by omega)]

theorem inodeIndex_of_not_inTable (h : ¬ InTable inode) : inodeIndex inode = .error .notFound := by
  unfold inodeIndex
  unfold InTable at h
  by_cases hzero : inode = 0
  · rw [if_pos hzero]
  · rw [if_neg hzero, if_pos (by omega)]

theorem inodeSector_eq (index : Nat) : inodeSector index = 1 + index / 4 := rfl

theorem inodeOffset_eq (index : Nat) : inodeOffset index = index % 4 * 128 := rfl

/-- Table sectors lie between the superblock and the data. -/
theorem inodeSector_bounds (h : InTable inode) :
    0 < inodeSector (inode - 1) ∧ inodeSector (inode - 1) < DATA_START := by
  obtain ⟨_, h₂⟩ := h
  have : INODE_COUNT = 64 := rfl
  have : DATA_START = 17 := rfl
  rw [inodeSector_eq]
  omega

theorem inodeOffset_bound (index : Nat) : inodeOffset index + INODE_SIZE ≤ SECTOR_SIZE := by
  have : INODE_SIZE = 128 := rfl
  have : SECTOR_SIZE = 512 := rfl
  rw [inodeOffset_eq]
  omega

/-- Records of one sector do not overlap. -/
theorem inodeOffset_disjoint {j : Nat} (hsector : inodeSector i = inodeSector j) (hne : i ≠ j) :
    inodeOffset j + INODE_SIZE ≤ inodeOffset i ∨ inodeOffset i + INODE_SIZE ≤ inodeOffset j := by
  have : INODE_SIZE = 128 := rfl
  rw [inodeSector_eq, inodeSector_eq] at hsector
  rw [inodeOffset_eq, inodeOffset_eq]
  omega

/-- The record with this number, as it is on disk. -/
def record (d : Disk) (inode : Nat) : Except VfsError DiskInode :=
  decodeInode (slice (d (inodeSector (inode - 1))) (inodeOffset (inode - 1)) INODE_SIZE)

/-- The disk after `write_inode`. -/
def putRecord (d : Disk) (inode : Nat) (value : DiskInode) : Disk :=
  Function.update d (inodeSector (inode - 1))
    (splice (d (inodeSector (inode - 1))) (inodeOffset (inode - 1)) (encodeInode value))

theorem record_putRecord_self (d : Disk) (inode : Nat) (h : value.Storable) :
    record (putRecord d inode value) inode = .ok value := by
  have hfit : inodeOffset (inode - 1) + (encodeInode value).length ≤ SECTOR_SIZE := by
    rw [length_encodeInode]
    exact inodeOffset_bound _
  unfold record putRecord
  rw [Function.update_self, ← length_encodeInode value, slice_splice _ hfit,
    decodeInode_encodeInode h]

/-- The bytes of a record. -/
def rawRecord (d : Disk) (inode : Nat) : List UInt8 :=
  slice (d (inodeSector (inode - 1))) (inodeOffset (inode - 1)) INODE_SIZE

theorem rawRecord_putRecord_of_ne (d : Disk) {other : Nat} (value : DiskInode) (hi : InTable inode)
    (ho : InTable other) (hne : other ≠ inode) :
    rawRecord (putRecord d inode value) other = rawRecord d other := by
  have hindex : inode - 1 ≠ other - 1 := by
    have := hi.1
    have := ho.1
    omega
  unfold rawRecord putRecord
  by_cases hsector : inodeSector (inode - 1) = inodeSector (other - 1)
  · have hdisjoint := inodeOffset_disjoint hsector hindex
    rw [← length_encodeInode value] at hdisjoint
    rw [← hsector, Function.update_self, slice_splice_of_disjoint]
    · rw [← length_encodeInode value]
      exact hdisjoint
  · rw [Function.update_of_ne (Ne.symm hsector)]

theorem record_putRecord_of_ne (d : Disk) {other : Nat} (value : DiskInode) (hi : InTable inode)
    (ho : InTable other) (hne : other ≠ inode) :
    record (putRecord d inode value) other = record d other :=
  congrArg decodeInode (rawRecord_putRecord_of_ne d value hi ho hne)

/-- Nothing outside the table changes. -/
theorem putRecord_outside (d : Disk) {sector : Nat} (value : DiskInode) (hi : InTable inode)
    (hs : sector = 0 ∨ DATA_START ≤ sector) : putRecord d inode value sector = d sector := by
  have hbounds := inodeSector_bounds hi
  unfold putRecord
  exact Function.update_of_ne (by omega) _ _

/-- Records depend on the table's sectors only. -/
theorem rawRecord_congr {d : Disk} (hi : InTable inode)
    (h : ∀ s, 0 < s → s < DATA_START → d' s = d s) : rawRecord d' inode = rawRecord d inode := by
  have hbounds := inodeSector_bounds hi
  unfold rawRecord
  rw [h _ hbounds.1 hbounds.2]

theorem record_congr {d : Disk} (hi : InTable inode)
    (h : ∀ s, 0 < s → s < DATA_START → d' s = d s) : record d' inode = record d inode :=
  congrArg decodeInode (rawRecord_congr hi h)

section Programs

variable {E : Env Sector BlockError} {d : Disk}

/-- `read_inode` finds the record. -/
theorem readInode_reads (hd : E.inv d) (hsize : DATA_START ≤ E.size) (h : InTable inode) :
    Reads E 1 (readInode inode) d (record d inode) := by
  have hbounds := inodeSector_bounds h
  have hread := Reads.readBlock hd mapBlock Purpose.metadata (inodeSector (inode - 1))
  rw [Env.answer, if_pos (by omega)] at hread
  unfold readInode
  rw [inodeIndex_of_inTable h]
  exact (Reads.ofExcept _).bind (hread.bind (Reads.ofExcept _) rfl) rfl

/-- There is no record with a number outside the table. -/
theorem readInode_notFound (h : ¬ InTable inode) :
    Reads E 0 (readInode inode) d (.error .notFound) := by
  unfold readInode
  rw [inodeIndex_of_not_inTable h]
  exact (Reads.ofExcept _).bind_error

/-- `write_inode` puts the record. -/
theorem writeInode_runs (hd : E.inv d) (hsize : DATA_START ≤ E.size) (h : InTable inode)
    (hd' : E.inv (putRecord d inode value)) :
    Runs E (writeInode inode value) d (.ok ()) (putRecord d inode value) := by
  have hbounds := inodeSector_bounds h
  have hread := Reads.readBlock hd mapBlock Purpose.metadata (inodeSector (inode - 1))
  rw [Env.answer, if_pos (by omega)] at hread
  unfold writeInode
  rw [inodeIndex_of_inTable h]
  refine ((Reads.ofExcept _).runs hd).bind ((hread.runs hd).bind ?_)
  exact Runs.writeBlock hd mapBlock _ (by omega) hd'

/-- **The inode table is an array of records.** On every disk that holds the table:
`write_inode` makes `read_inode` return the record, leaves what it returns for every other
record, and touches neither the superblock nor the data area; and a record that is accepted is
the same after another round through its bytes. -/
theorem inodeTable_array {size inode : Nat} {value : DiskInode} (d : Disk)
    (hsize : DATA_START ≤ size) (hinode : InTable inode) (hkind : value.kind ≤ 2)
    (hname : value.nameLen.toNat ≤ 63) :
    (∃ d', evaluate size .outOfRange (writeInode inode value) d = (.ok (), d') ∧
      evaluate size .outOfRange (readInode inode) d' = (.ok value, d') ∧
      (∀ other, InTable other → other ≠ inode →
        (evaluate size .outOfRange (readInode other) d').1 =
          (evaluate size .outOfRange (readInode other) d).1) ∧
      ∀ sector, sector = 0 ∨ DATA_START ≤ sector → d' sector = d sector) ∧
    ∀ raw entry, decodeInode raw = .ok entry → decodeInode (encodeInode entry) = .ok entry := by
  have hread : ∀ (d : Disk) inode, InTable inode →
      evaluate size .outOfRange (readInode inode) d = (record d inode, d) := fun d inode hinode =>
    ((readInode_reads (E := Env.perfect size BlockError.outOfRange) trivial hsize
      hinode).runs trivial).evaluate
  refine ⟨⟨putRecord d inode value, ?_, ?_, fun other hother hne => ?_, fun sector hsector => ?_⟩,
    fun raw entry hraw => decodeInode_encodeInode (storable_of_decodeInode hraw)⟩
  · exact (writeInode_runs (E := Env.perfect size BlockError.outOfRange) trivial hsize hinode
      trivial).evaluate
  · rw [hread _ _ hinode, record_putRecord_self d inode ⟨hname, hkind⟩]
  · rw [hread _ _ hother, hread _ _ hother]
    exact record_putRecord_of_ne d value hinode hother hne
  · exact putRecord_outside d value hinode hsector

/-- The root record on a blank disk. -/
theorem inodeTable_array_root : ∃ d',
    evaluate 17 .outOfRange (writeInode 1 DiskInode.root) (fun _ => zeroSector) = (.ok (), d') ∧
    evaluate 17 .outOfRange (readInode 1) d' = (.ok DiskInode.root, d') := by
  obtain ⟨⟨d', hwrite, hread, _⟩, _⟩ := inodeTable_array (fun _ => zeroSector)
    (show DATA_START ≤ 17 by decide) (show InTable 1 from ⟨le_refl _, by decide⟩)
    (show DiskInode.root.kind ≤ 2 by decide) (show DiskInode.root.nameLen.toNat ≤ 63 by decide)
  exact ⟨d', hwrite, hread⟩

end Programs

/-! ## Tables and scans -/

/-- The contents of the inode table. -/
abbrev Table := Nat → DiskInode

/-- Every record of the disk decodes, to the one of `T`. -/
def Shows (d : Disk) (T : Table) : Prop := ∀ i, InTable i → record d i = .ok (T i)

theorem Shows.storable {d : Disk} (h : Shows d T) (hi : InTable i) :
    (T i).Storable := storable_of_decodeInode (h i hi)

theorem Shows.put {d : Disk} (h : Shows d T) (hi : InTable inode) (hvalue : value.Storable) :
    Shows (putRecord d inode value) (Function.update T inode value) := by
  intro j hj
  by_cases heq : j = inode
  · subst heq
    rw [record_putRecord_self d j hvalue, Function.update_self]
  · rw [record_putRecord_of_ne d value hi hj heq, Function.update_of_ne heq]
    exact h j hj

theorem Shows.congr {d : Disk} (h : Shows d T) (hsame : ∀ s, 0 < s → s < DATA_START → d' s = d s) :
    Shows d' T := by
  intro i hi
  rw [record_congr hi hsame]
  exact h i hi

/-- Two readings of one table. -/
theorem Shows.unique {d : Disk} {T' : Table} (h : Shows d T) (h' : Shows d T') (hi : InTable i) :
    T i = T' i := by
  have := h i hi
  rw [h' i hi] at this
  exact (Except.ok.inj this).symm

theorem mem_inodeNumbers : i ∈ inodeNumbers ↔ 2 ≤ i ∧ i ≤ INODE_COUNT := by
  have : INODE_COUNT = 64 := rfl
  unfold inodeNumbers
  rw [List.mem_range'_1]
  omega

theorem inTable_of_mem (h : i ∈ inodeNumbers) : InTable i := by
  have := mem_inodeNumbers.mp h
  exact ⟨by omega, this.2⟩

/-- A scan, on paper. -/
def scanTable {β : Type} (visit : Nat → DiskInode → Except VfsError (Option β)) (T : Table) :
    List Nat → Except VfsError (Option β)
  | [] => .ok none
  | inode :: rest =>
      match visit inode (T inode) with
      | .error e => .error e
      | .ok (some found) => .ok (some found)
      | .ok none => scanTable visit T rest

/-- The records a scan looks at. -/
def scanCost {β : Type} (visit : Nat → DiskInode → Except VfsError (Option β)) (T : Table) :
    List Nat → Nat
  | [] => 0
  | inode :: rest =>
      match visit inode (T inode) with
      | .ok none => 1 + scanCost visit T rest
      | _ => 1

/-- A scan stops at the first record that yields something. -/
theorem scanTable_found {visit : Nat → DiskInode → Except VfsError (Option β)} {b : β} {n : Nat} :
    ∀ {a : Nat},
    scanTable visit T (List.range' a n) = .ok (some b) →
    ∃ i, a ≤ i ∧ i < a + n ∧ visit i (T i) = .ok (some b) ∧
      (∀ j, a ≤ j → j < i → visit j (T j) = .ok none) ∧
      scanCost visit T (List.range' a n) = i + 1 - a := by
  induction n with
  | zero =>
      intro a h
      cases h
  | succ n ih =>
      intro a h
      rw [List.range'_succ] at h ⊢
      unfold scanTable at h
      unfold scanCost
      cases hvisit : visit a (T a) with
      | error e =>
          rw [hvisit] at h
          cases h
      | ok result =>
          rw [hvisit] at h
          cases result with
          | some found =>
              obtain rfl : found = b := by
                injection h with h
                injection h
              exact ⟨a, le_refl a, by omega, hvisit, fun j hj hlt => absurd hj (by omega),
                by show 1 = a + 1 - a; omega⟩
          | none =>
              obtain ⟨i, hle, hlt, hfound, hbefore, hcost⟩ := ih h
              refine ⟨i, by omega, by omega, hfound, fun j hj hji => ?_, ?_⟩
              · by_cases heq : j = a
                · rw [heq]
                  exact hvisit
                · exact hbefore j (by omega) hji
              · show 1 + scanCost visit T (List.range' (a + 1) n) = i + 1 - a
                omega

theorem scanTable_none {visit : Nat → DiskInode → Except VfsError (Option β)} {numbers : List Nat}
    (h : scanTable visit T numbers = .ok none) : ∀ i ∈ numbers, visit i (T i) = .ok none := by
  induction numbers with
  | nil => exact fun i hi => nomatch hi
  | cons inode rest ih =>
      unfold scanTable at h
      cases hvisit : visit inode (T inode) with
      | error e =>
          rw [hvisit] at h
          cases h
      | ok result =>
          rw [hvisit] at h
          cases result with
          | some found => cases h
          | none =>
              intro i hi
              rcases List.mem_cons.mp hi with rfl | hi
              · exact hvisit
              · exact ih h i hi

/-- A scan that no record stops with an error does not fail. -/
theorem scanTable_ok (visit : Nat → DiskInode → Except VfsError (Option β)) (T : Table)
    (numbers : List Nat) (h : ∀ i ∈ numbers, ∃ result, visit i (T i) = .ok result) :
    ∃ result, scanTable visit T numbers = .ok result := by
  induction numbers with
  | nil => exact ⟨none, rfl⟩
  | cons inode rest ih =>
      obtain ⟨result, hvisit⟩ := h inode List.mem_cons_self
      unfold scanTable
      rw [hvisit]
      cases result with
      | some found => exact ⟨some found, rfl⟩
      | none => exact ih fun i hi => h i (List.mem_cons_of_mem _ hi)

/-- **A scan finds what it finds on paper**, at its cost. -/
theorem scan_reads {E : Env Sector BlockError} {d : Disk} (hd : E.inv d)
    (hsize : DATA_START ≤ E.size) (hT : Shows d T)
    (visit : Nat → DiskInode → Except VfsError (Option β)) (numbers : List Nat)
    (hnumbers : ∀ i ∈ numbers, InTable i) :
    Reads E (scanCost visit T numbers) (scan visit numbers) d (scanTable visit T numbers) := by
  induction numbers with
  | nil => exact Reads.pure none
  | cons inode rest ih =>
      have hinode := hnumbers inode List.mem_cons_self
      have hread := readInode_reads hd hsize hinode
      rw [hT inode hinode] at hread
      have hresult : Reads E 0 (MonadExcept.ofExcept (visit inode (T inode)) :
          FsProg (Option β)) d (visit inode (T inode)) := Reads.ofExcept _
      unfold scan scanTable scanCost
      cases hvisit : visit inode (T inode) with
      | error e =>
          rw [hvisit] at hresult
          exact hread.bind (by rw [hvisit]; exact hresult.bind_error) rfl
      | ok result =>
          rw [hvisit] at hresult
          cases result with
          | some found => exact hread.bind (by rw [hvisit]; exact hresult.bind (Reads.pure _) rfl) rfl
          | none =>
              have hrest := ih fun i hi => hnumbers i (List.mem_cons_of_mem _ hi)
              exact hread.bind (by rw [hvisit]; exact hresult.bind hrest (Nat.zero_add _)) rfl

end GenericKernel.Fs
