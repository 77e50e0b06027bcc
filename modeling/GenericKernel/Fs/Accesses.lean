import GenericKernel.Fs.Extents
import GenericKernel.Fs.FileStore
import GenericKernel.Lib.BlockAccess

/-!
# The sectors a file operation accesses

Which sectors `read`, `write` and `truncate` access from any disk whatsoever: records
may point anywhere, and sums of sector numbers may wrap. The loops go up sector by
sector, so one that starts without wrapping meets the end of the device before it
wraps, and stops there with an error.

The lemmas are over a permission `P` for accesses; each asks for the permissions its
program needs (`Permits` for those that every program needs).
-/

namespace GenericKernel.Fs

open GenericKernel.Lib

/-- Reading metadata is permitted, and missing the device is permitted or shows in the
error. -/
structure Permits (sectors : Nat) (P : Access Purpose → Prop) (Q : VfsError → Prop) : Prop where
  reads : ∀ block, P ⟨.metadata, false, block⟩
  misses : ∀ x : Access Purpose, sectors ≤ x.block → P x ∨ sectors ≤ x.block ∧ Q .corruptFilesystem

/-- The first sector of a loop misses the device, or its number does not wrap. -/
def Starts (sectors start position : Nat) : Prop :=
  sectors ≤ wrappingAdd start (position / SECTOR_SIZE) ∨ start + position / SECTOR_SIZE < wordSize

/-- The table as far as its records decode. -/
def tableOf (d : Disk) : Table := fun i =>
  match record d i with
  | .ok e => e
  | .error _ => DiskInode.empty

/-- What `find_extent` finds; it fails if another record does not decode. -/
def Finds (sectors : Nat) (d : Disk) (inode needed a : Nat) : Prop :=
  (∀ i ∈ inodeNumbers, i ≠ inode → record d i = .ok (tableOf d i)) ∧
    findExtentTable sectors (tableOf d) needed inode = .ok a

theorem record_tableOf {d : Disk} {i : Nat} {e : DiskInode} (h : record d i = .ok e) :
    tableOf d i = e := by
  unfold tableOf
  rw [h]

/-! ## The search -/

theorem firstGap_bounds {count sectors a : Nat} (l : List (Nat × Nat)) :
    ∀ {candidate : Nat}, candidate < wordSize → (∀ x ∈ l, x.2 < wordSize) →
    firstGap count sectors candidate l = some a → candidate ≤ a ∧ a < wordSize := by
  induction l with
  | nil =>
      intro candidate hcandidate _ h
      rw [firstGap] at h
      by_cases hfit : wrappingAdd candidate count ≤ sectors
      · rw [if_pos hfit] at h
        obtain rfl := Option.some.inj h
        exact ⟨le_refl _, hcandidate⟩
      · rw [if_neg hfit] at h
        cases h
  | cons x l ih =>
      intro candidate hcandidate hl h
      obtain ⟨start, stop⟩ := x
      have hstop : stop < wordSize := hl _ List.mem_cons_self
      rw [firstGap] at h
      by_cases hgap : wrappingAdd candidate count ≤ start
      · rw [if_pos hgap] at h
        obtain rfl := Option.some.inj h
        exact ⟨le_refl _, hcandidate⟩
      · rw [if_neg hgap] at h
        have := ih (show max candidate stop < wordSize by omega)
          (fun y hy => hl y (List.mem_cons_of_mem _ hy)) h
        omega

/-- Whatever the records say, a run that is found starts in the data area. -/
theorem Finds.bounds {sectors inode needed a : Nat} {d : Disk} (h : Finds sectors d inode needed a)
    (hneeded : 0 < needed) : DATA_START ≤ a ∧ a < wordSize := by
  have hsearch := h.2
  rw [findExtentTable, if_neg (Nat.ne_of_gt hneeded)] at hsearch
  revert hsearch
  generalize hl : (usedTable (tableOf d) inode inodeNumbers).mergeSort (fun a b => a.1 ≤ b.1) = l
  have hstop : ∀ x ∈ l, x.2 < wordSize := by
    intro x hx
    rw [← hl] at hx
    obtain ⟨i, _, _, _, rfl⟩ := mem_usedTable.mp (List.mem_mergeSort.mp hx)
    exact Nat.mod_lt _ wordSize_pos
  cases hgap : firstGap needed sectors DATA_START l with
  | none => exact fun hsearch => nomatch hsearch
  | some b =>
      intro hsearch
      obtain rfl := Except.ok.inj hsearch
      have hlow : DATA_START < wordSize := lt_wordSize (by decide)
      exact firstGap_bounds l hlow hstop hgap

section Programs

variable {sectors : Nat} {P : Access Purpose → Prop} {Q : VfsError → Prop} {d : Disk}
  {inode start : Nat}

/-! ## Records -/

theorem readInode_guarded (hP : Permits sectors P Q) (inode : Nat) :
    Guarded sectors .outOfRange P Q (readInode inode) d
      (fun e d' => d' = d ∧ InTable inode ∧ record d inode = .ok e) := by
  unfold readInode
  by_cases hin : InTable inode
  · rw [inodeIndex_of_inTable hin]
    refine (Guarded.ofExcept (R := fun index d' => index = inode - 1 ∧ d' = d) ?_).bind ?_
    · exact fun index hindex => ⟨(Except.ok.inj hindex).symm, rfl⟩
    rintro index d' ⟨rfl, rfl⟩
    refine (Guarded.readBlock (R := fun raw d₁ => raw = d' (inodeSector (inode - 1)) ∧ d₁ = d')
      (.inl (hP.reads _)) fun _ => ⟨rfl, rfl⟩).bind ?_
    rintro raw d₁ ⟨rfl, rfl⟩
    exact Guarded.ofExcept fun e he => ⟨rfl, hin, he⟩
  · rw [inodeIndex_of_not_inTable hin]
    refine (Guarded.ofExcept (R := fun _ _ => False) fun index hindex => ?_).bind
      fun _ _ hfalse => hfalse.elim
    exact nomatch hindex

theorem openFile_guarded (hP : Permits sectors P Q) (inode : Nat) :
    Guarded sectors .outOfRange P Q (openFile inode) d
      (fun e d' => d' = d ∧ InTable inode ∧ record d inode = .ok e ∧ e.kind = 1) := by
  unfold openFile
  refine (readInode_guarded hP inode).bind ?_
  rintro e d' ⟨rfl, hin, he⟩
  refine (Guarded.ofExcept (R := fun kind d₁ => e.nodeKind = .ok kind ∧ d₁ = d')
    fun kind hkind => ⟨hkind, rfl⟩).bind ?_
  rintro kind d₁ ⟨hkind, rfl⟩
  by_cases hdir : kind = .directory
  · rw [if_pos hdir]
    exact Guarded.throw _
  · rw [if_neg hdir]
    refine Guarded.pure ⟨rfl, hin, he, ?_⟩
    unfold DiskInode.nodeKind at hkind
    by_cases hfile : e.kind = 1
    · exact hfile
    · rw [if_neg hfile] at hkind
      by_cases htwo : e.kind = 2
      · rw [if_pos htwo] at hkind
        exact absurd (Except.ok.inj hkind).symm hdir
      · rw [if_neg htwo] at hkind
        exact nomatch hkind

theorem writeInode_guarded (hP : Permits sectors P Q) (hin : InTable inode)
    (hwrite : P ⟨.metadata, true, inodeSector (inode - 1)⟩) (value : DiskInode) :
    Guarded sectors .outOfRange P Q (writeInode inode value) d
      (fun _ d' => d' = putRecord d inode value) := by
  unfold writeInode
  rw [inodeIndex_of_inTable hin]
  refine (Guarded.ofExcept (R := fun index d' => index = inode - 1 ∧ d' = d) ?_).bind ?_
  · exact fun index hindex => ⟨(Except.ok.inj hindex).symm, rfl⟩
  rintro index d' ⟨rfl, rfl⟩
  refine (Guarded.readBlock (R := fun raw d₁ => raw = d' (inodeSector (inode - 1)) ∧ d₁ = d')
    (.inl (hP.reads _)) fun _ => ⟨rfl, rfl⟩).bind ?_
  rintro raw d₁ ⟨rfl, rfl⟩
  exact Guarded.writeBlock (.inl hwrite) fun _ => rfl

theorem usedExtents_guarded (hP : Permits sectors P Q) (exclude : Nat) (numbers : List Nat) :
    Guarded sectors .outOfRange P Q (usedExtents exclude numbers) d (fun used d' => d' = d ∧
      (∀ i ∈ numbers, i ≠ exclude → record d i = .ok (tableOf d i)) ∧
      used = usedTable (tableOf d) exclude numbers) := by
  induction numbers with
  | nil => exact Guarded.pure ⟨rfl, fun i hi => (nomatch hi), rfl⟩
  | cons inode rest ih =>
      unfold usedExtents usedTable
      by_cases hskip : inode = exclude
      · rw [if_pos hskip, if_pos hskip]
        refine ih.conseq ?_
        rintro used d' ⟨rfl, hrest, hused⟩
        refine ⟨rfl, fun i hi hne => ?_, hused⟩
        rcases List.mem_cons.mp hi with rfl | hi
        · exact absurd hskip hne
        · exact hrest i hi hne
      · rw [if_neg hskip, if_neg hskip]
        refine (readInode_guarded hP inode).bind ?_
        rintro e d' ⟨rfl, _, he⟩
        refine ih.bind ?_
        rintro used d₁ ⟨rfl, hrest, rfl⟩
        have htable := record_tableOf he
        have hall : ∀ i ∈ inode :: rest, i ≠ exclude → record d₁ i = .ok (tableOf d₁ i) := by
          intro i hi hne
          rcases List.mem_cons.mp hi with rfl | hi
          · rw [htable]
            exact he
          · exact hrest i hi hne
        rw [htable]
        by_cases hextent : e.HasExtent
        · rw [if_pos hextent, if_pos (show e.kind = 1 ∧ e.sectorCount ≠ 0 from hextent)]
          exact Guarded.pure ⟨rfl, hall, rfl⟩
        · rw [if_neg hextent, if_neg (show ¬ (e.kind = 1 ∧ e.sectorCount ≠ 0) from hextent)]
          exact Guarded.pure ⟨rfl, hall, rfl⟩

theorem findExtent_guarded (hP : Permits sectors P Q) {needed : Nat} (hneeded : 0 < needed)
    (inode : Nat) : Guarded sectors .outOfRange P Q (findExtent sectors needed inode) d
      (fun a d' => d' = d ∧ Finds sectors d inode needed a) := by
  unfold findExtent
  rw [if_neg (Nat.ne_of_gt hneeded)]
  refine (usedExtents_guarded hP inode inodeNumbers).bind ?_
  rintro used d' ⟨rfl, hall, rfl⟩
  cases hgap : firstGap needed sectors DATA_START
      ((usedTable (tableOf d') inode inodeNumbers).mergeSort fun a b => a.1 ≤ b.1) with
  | none => exact Guarded.throw _
  | some a =>
      refine Guarded.pure ⟨rfl, hall, ?_⟩
      rw [findExtentTable, if_neg (Nat.ne_of_gt hneeded), hgap]

/-! ## Loops -/

/-- Sector `index` of a loop over the extent at `start` that has come this far. -/
theorem extent_block {index : Nat}
    (hstart : sectors ≤ wrappingAdd start index ∨ start + index < wordSize)
    (hin : wrappingAdd start index < sectors) :
    wrappingAdd start index = start + index ∧ start + index < sectors := by
  have hword := hstart.resolve_left (Nat.not_le.mpr hin)
  rw [wrappingAdd_of_lt hword] at hin ⊢
  exact ⟨rfl, hin⟩

/-- The permission for a sector, which lies on the device or misses it. -/
theorem Permits.extent (hP : Permits sectors P Q) {index : Nat}
    {writes : Bool} (hstart : sectors ≤ wrappingAdd start index ∨ start + index < wordSize)
    (hin : start + index < sectors → P ⟨.extent start index, writes, start + index⟩) :
    P ⟨.extent start index, writes, wrappingAdd start index⟩ ∨
      sectors ≤ wrappingAdd start index ∧ Q .corruptFilesystem := by
  by_cases hmiss : sectors ≤ wrappingAdd start index
  · exact hP.misses ⟨.extent start index, writes, wrappingAdd start index⟩ hmiss
  · obtain ⟨hblock, hlt⟩ := extent_block hstart (Nat.not_le.mp hmiss)
    rw [hblock]
    exact .inl (hin hlt)

/-- The loop of `write` and `zero_range`. -/
theorem overlay_guarded (hP : Permits sectors P Q) (hsize : sectors < wordSize) (fuel : Nat) :
    ∀ {position : Nat} {bytes : List UInt8} {d : Disk}, bytes.length ≤ fuel →
    (0 < bytes.length → Starts sectors start position) →
    (0 < bytes.length → ∀ writes index, position / SECTOR_SIZE ≤ index →
      SECTOR_SIZE * index < position + bytes.length → start + index < sectors →
      P ⟨.extent start index, writes, start + index⟩) →
    Guarded sectors .outOfRange P Q (overlay start fuel position bytes) d (fun _ _ =>
      0 < bytes.length → ∀ index, position / SECTOR_SIZE ≤ index →
        SECTOR_SIZE * index < position + bytes.length → start + index < sectors) := by
  have hsector : SECTOR_SIZE = 512 := rfl
  induction fuel with
  | zero =>
      intro position bytes d hfuel _ _
      exact Guarded.pure fun hpos => absurd hpos (by omega)
  | succ fuel ih =>
      intro position bytes d hfuel hstart hin
      unfold overlay
      by_cases hnil : bytes.length = 0
      · rw [if_pos hnil]
        exact Guarded.pure fun hpos => absurd hnil (Nat.ne_of_gt hpos)
      rw [if_neg hnil]
      generalize hchunk : min (SECTOR_SIZE - position % SECTOR_SIZE) bytes.length = chunk
      have hpos : 0 < bytes.length := Nat.pos_of_ne_zero hnil
      have hfirst : SECTOR_SIZE * (position / SECTOR_SIZE) < position + bytes.length := by
        rw [hsector]
        omega
      dsimp only [readExtent, writeExtent]
      rw [hchunk]
      refine (Guarded.readBlock (R := fun _ d' => wrappingAdd start (position / SECTOR_SIZE) < sectors)
        (hP.extent (hstart hpos) (hin hpos false _ (le_refl _) hfirst)) id).bind fun buffer d' hblock => ?_
      obtain ⟨hword, hlt⟩ := extent_block (hstart hpos) hblock
      refine (Guarded.writeBlock (R := fun _ _ => True)
        (hP.extent (hstart hpos) (hin hpos true _ (le_refl _) hfirst)) fun _ => trivial).bind
          fun _ d₁ _ => ?_
      -- the next sector is at most the one after this, which does not wrap
      refine (@ih (position + chunk) (bytes.drop chunk) d₁ ?_ ?_ ?_).conseq ?_
      · rw [List.length_drop]
        rw [hsector] at hchunk
        omega
      · intro _
        refine .inr ?_
        rw [hsector] at hchunk hlt ⊢
        omega
      · intro _ writes index hle hlt'
        rw [List.length_drop] at hlt'
        refine hin hpos writes index ?_ (by omega)
        exact le_trans (Nat.div_le_div_right (Nat.le_add_right _ _)) hle
      · intro _ _ hrest _ index hle hlt'
        by_cases heq : index = position / SECTOR_SIZE
        · rw [heq]
          exact hlt
        · rw [List.length_drop] at hrest
          rw [hsector] at hchunk hle heq hlt' hrest
          exact hrest (by omega) index (by omega) (by omega)

/-- On the device the loop writes every sector of its bytes. -/
theorem overlay_writes (hsize : sectors < wordSize) {index : Nat} (hindex : start + index < sectors)
    (fuel : Nat) : ∀ {position : Nat} {bytes : List UInt8} {d : Disk}, bytes.length ≤ fuel →
    0 < bytes.length → position / SECTOR_SIZE ≤ index →
    SECTOR_SIZE * index < position + bytes.length →
    ⟨.extent start index, true, start + index⟩ ∈
      accesses sectors .outOfRange (overlay start fuel position bytes) d := by
  have hsector : SECTOR_SIZE = 512 := rfl
  induction fuel with
  | zero =>
      intro position bytes d hfuel hpos
      omega
  | succ fuel ih =>
      intro position bytes d hfuel hpos hle hlt
      have hblock : start + position / SECTOR_SIZE < sectors := by omega
      have hword : wrappingAdd start (position / SECTOR_SIZE) = start + position / SECTOR_SIZE :=
        wrappingAdd_of_lt (by omega)
      unfold overlay
      rw [if_neg (Nat.ne_of_gt hpos)]
      generalize hchunk : min (SECTOR_SIZE - position % SECTOR_SIZE) bytes.length = chunk
      dsimp only [readExtent, writeExtent]
      rw [hword, hchunk]
      refine mem_accesses_right (by rw [evaluate_readBlock, if_pos hblock]) ?_
      by_cases heq : index = position / SECTOR_SIZE
      · refine mem_accesses_left ?_
        rw [accesses_writeBlock, heq]
        exact List.mem_singleton_self _
      · refine mem_accesses_right (by rw [evaluate_writeBlock, if_pos hblock]) ?_
        have hrest : (bytes.drop chunk).length = bytes.length - chunk := List.length_drop
        rw [hsector] at hchunk hle hlt heq
        refine ih (by omega) (by omega) ?_ ?_
        · rw [hsector]
          omega
        · rw [hsector]
          omega

variable (hP : Permits sectors P Q) (hsize : sectors < wordSize)
include hP hsize

/-- The loop of `read`. -/
theorem readLoop_guarded (fuel : Nat) :
    ∀ {position total : Nat} {d : Disk}, (0 < total → Starts sectors start position) →
    (∀ index, position / SECTOR_SIZE ≤ index → start + index < sectors →
      P ⟨.extent start index, false, start + index⟩) →
    Guarded sectors .outOfRange P Q (readLoop start fuel position total) d (fun _ _ => True) := by
  have hsector : SECTOR_SIZE = 512 := rfl
  induction fuel with
  | zero => exact fun _ _ => Guarded.pure trivial
  | succ fuel ih =>
      intro position total d hstart hin
      unfold readLoop
      by_cases hnil : total = 0
      · rw [if_pos hnil]
        exact Guarded.pure trivial
      rw [if_neg hnil]
      have hpos : 0 < total := Nat.pos_of_ne_zero hnil
      generalize hchunk : min (SECTOR_SIZE - position % SECTOR_SIZE) total = chunk
      dsimp only [readExtent]
      rw [hchunk]
      refine (Guarded.readBlock (R := fun _ d' => wrappingAdd start (position / SECTOR_SIZE) < sectors)
        (hP.extent (hstart hpos) (hin _ (le_refl _))) id).bind fun buffer d' hblock => ?_
      obtain ⟨hword, hlt⟩ := extent_block (hstart hpos) hblock
      refine (@ih (position + chunk) (total - chunk) d' ?_ ?_).bind fun rest d₁ _ => Guarded.pure trivial
      · intro _
        refine .inr ?_
        rw [hsector] at hchunk hlt ⊢
        omega
      · exact fun index hle => hin index
          (le_trans (Nat.div_le_div_right (Nat.le_add_right _ _)) hle)

/-- The zeroing loop of `ensure_capacity`. -/
theorem zeroLoop_guarded {count : Nat} (hstart : start < wordSize)
    (hin : ∀ i < count, start + i < sectors → P ⟨.extent start i, true, start + i⟩) :
    Guarded sectors .outOfRange P Q
      (forRange (fun sector => writeExtent start sector zeroSector) count) d
      (fun _ _ => count = 0 ∨ start + count ≤ sectors) := by
  refine Guarded.forRange (fun i _ => i = 0 ∨ start + i ≤ sectors) (fun i hi d' hI => ?_) (.inl rfl)
  have hword : start + i < wordSize := by omega
  unfold writeExtent
  refine Guarded.writeBlock (hP.extent (.inr hword) (hin i hi)) fun hblock => .inr ?_
  rw [wrappingAdd_of_lt hword] at hblock
  omega

/-- Its copy loop. -/
theorem copyLoop_guarded
    {source count : Nat} (hsource : source < wordSize) (hfit : start + count ≤ sectors)
    (hread : ∀ i < count, source + i < sectors → P ⟨.extent source i, false, source + i⟩)
    (hin : ∀ i < count, start + i < sectors → P ⟨.extent start i, true, start + i⟩) :
    Guarded sectors .outOfRange P Q (forRange (fun sector => do
        let buffer ← readExtent source sector
        writeExtent start sector buffer) count) d (fun _ _ => True) := by
  refine (Guarded.forRange (fun i _ => i = 0 ∨ source + i ≤ sectors) (fun i hi d' hI => ?_)
    (.inl rfl)).conseq fun _ _ _ => trivial
  have hword : source + i < wordSize := by omega
  have hword' : start + i < wordSize := by omega
  unfold readExtent writeExtent
  refine (Guarded.readBlock (R := fun _ _ => source + i < sectors)
    (hP.extent (.inr hword) (hread i hi)) fun hblock => ?_).bind fun buffer d₁ hlt => ?_
  · rw [wrappingAdd_of_lt hword] at hblock
    exact hblock
  · exact Guarded.writeBlock (hP.extent (.inr hword') (hin i hi)) fun _ => .inr (by omega)

/-! ## Growing and filling -/

/-- `ensure_capacity`: the file stays, or moves to the run that is found. -/
theorem ensureCapacity_guarded {e : DiskInode} {needed : Nat}
    (hnew : e.sectors < needed → ∀ a, Finds sectors d inode needed a → ∀ i < needed,
      a + i < sectors → P ⟨.extent a i, true, a + i⟩)
    (hold : e.sectors < needed → ∀ a, Finds sectors d inode needed a → a + needed ≤ sectors →
      ∀ i < e.sectors, e.first + i < sectors → P ⟨.extent e.first i, false, e.first + i⟩) :
    Guarded sectors .outOfRange P Q (ensureCapacity sectors inode e needed) d (fun e' d' =>
      needed ≤ e.sectors ∧ e' = e ∧ d' = d ∨
      e.sectors < needed ∧ ∃ a, Finds sectors d inode needed a ∧ a + needed ≤ sectors ∧
        needed < 2 ^ 32 ∧ e' = relocated e a needed) := by
  unfold ensureCapacity
  by_cases hfits : needed ≤ e.sectorCount.toNat
  · rw [if_pos hfits]
    exact Guarded.pure (.inl ⟨hfits, rfl, rfl⟩)
  rw [if_neg hfits]
  have hless : e.sectors < needed := Nat.not_le.mp hfits
  have hpos : 0 < needed := by omega
  refine (findExtent_guarded hP hpos inode).bind ?_
  rintro a d' ⟨rfl, ha⟩
  obtain ⟨hlow, hword⟩ := ha.bounds hpos
  refine (zeroLoop_guarded hP hsize hword (hnew hless a ha)).bind fun _ d₁ hfit => ?_
  have hfit : a + needed ≤ sectors := hfit.resolve_left (Nat.ne_of_gt hpos)
  have hsource : e.startSector.toNat < wordSize := by
    rw [wordSize]
    exact e.startSector.toNat_lt
  refine (copyLoop_guarded hP hsize hsource ?_ (hold hless a ha hfit) ?_).bind
    fun _ d₂ _ => ?_
  · show a + e.sectors ≤ sectors
    omega
  · exact fun i hi => hnew hless a ha i (lt_trans hi hless)
  · by_cases hsmall : needed < 2 ^ 32
    · rw [if_pos hsmall]
      exact Guarded.pure (.inr ⟨hless, a, ha, hfit, hsmall, rfl⟩)
    · rw [if_neg hsmall]
      exact Guarded.throw _

/-- Zeroing the gap between the end of the file and `offset`. -/
theorem fillGap_guarded {e : DiskInode}
    {offset : Nat} (hstart : e.len.toNat < offset → Starts sectors e.first e.len.toNat)
    (hin : e.len.toNat < offset → ∀ writes index, e.len.toNat / SECTOR_SIZE ≤ index →
      SECTOR_SIZE * index < offset → e.first + index < sectors →
      P ⟨.extent e.first index, writes, e.first + index⟩) :
    Guarded sectors .outOfRange P Q (fillGap e offset) d (fun _ _ => e.len.toNat < offset →
      ∀ index, e.len.toNat / SECTOR_SIZE ≤ index → SECTOR_SIZE * index < offset →
        e.first + index < sectors) := by
  unfold fillGap
  by_cases hgap : e.len.toNat < offset
  · have hend : e.len.toNat + (List.replicate (offset - e.len.toNat) (0 : UInt8)).length = offset := by
      rw [List.length_replicate]
      omega
    rw [if_pos hgap]
    unfold zeroRange
    rw [if_neg (by omega)]
    have hloop := @overlay_guarded sectors P Q e.first hP hsize (offset - e.len.toNat) e.len.toNat
      (List.replicate (offset - e.len.toNat) 0) d (by rw [List.length_replicate])
      (fun _ => hstart hgap) (by rw [hend]; exact fun _ => hin hgap)
    rw [hend] at hloop
    exact hloop.conseq fun _ _ hrest _ => hrest (by rw [List.length_replicate]; omega)
  · rw [if_neg hgap]
    exact Guarded.pure fun h => absurd h hgap

/-- The loops over an entry, from the end of the file or from `offset` up to `stop`, start
without wrapping and have their permissions. -/
structure Cleared (sectors : Nat) (P : Access Purpose → Prop) (offset stop : Nat) (e : DiskInode) :
    Prop where
  starts : min e.len.toNat offset < stop → Starts sectors e.first (min e.len.toNat offset)
  permits : min e.len.toNat offset < stop → ∀ writes index,
    min e.len.toNat offset / SECTOR_SIZE ≤ index → SECTOR_SIZE * index < stop →
    e.first + index < sectors → P ⟨.extent e.first index, writes, e.first + index⟩

/-- The two loops of a file operation; the second goes on where the first ends. -/
theorem loops_guarded {offset stop : Nat}
    {e : DiskInode} (hle : offset ≤ stop) (h : Cleared sectors P offset stop e) :
    Guarded sectors .outOfRange P Q (fillGap e offset) d (fun _ d' => ∀ data : List UInt8,
      stop = offset + data.length → Guarded sectors .outOfRange P Q
        (overlay e.startSector.toNat data.length offset data) d' (fun _ _ => True)) := by
  have hsector : SECTOR_SIZE = 512 := rfl
  obtain ⟨hstarts, hpermits⟩ := h
  by_cases hlt : e.len.toNat < offset
  · rw [Nat.min_eq_left (le_of_lt hlt)] at hstarts hpermits
    have hsome : e.len.toNat < stop := by omega
    refine (fillGap_guarded hP hsize (fun _ => hstarts hsome)
      fun _ writes index hindex hend => hpermits hsome writes index hindex (by omega)).conseq ?_
    intro _ d' hfilled data hdata
    refine (overlay_guarded hP hsize _ (le_refl _) (fun _ => .inr ?_)
      fun _ writes index hindex hend => ?_).conseq fun _ _ _ => trivial
    · have hlast := hfilled hlt ((offset - 1) / SECTOR_SIZE)
      show e.first + offset / SECTOR_SIZE < wordSize
      rw [hsector] at hlast ⊢
      have := hlast (by omega) (by omega)
      omega
    · refine hpermits hsome writes index ?_ (by omega)
      exact le_trans (Nat.div_le_div_right (le_of_lt hlt)) hindex
  · rw [Nat.min_eq_right (Nat.not_lt.mp hlt)] at hstarts hpermits
    refine (fillGap_guarded hP hsize (fun h => absurd h hlt) fun h => absurd h hlt).conseq ?_
    intro _ d' _ data hdata
    exact (overlay_guarded hP hsize _ (le_refl _) (fun hpos => hstarts (by omega))
      fun hpos writes index hindex hend => hpermits (by omega) writes index hindex
        (by omega)).conseq fun _ _ _ => trivial

/-- `write`, if it may grow the file and then fill it. -/
theorem write_guarded {offset : Nat}
    {data : List UInt8} (hwrite : P ⟨.metadata, true, inodeSector (inode - 1)⟩)
    (hgrow : offset + data.length < wordSize → InTable inode → ∀ e, record d inode = .ok e →
      e.kind = 1 → Guarded sectors .outOfRange P Q
        (ensureCapacity sectors inode e (sectorsForLen (offset + data.length))) d
        (fun e' _ => Cleared sectors P offset (offset + data.length) e')) :
    Guarded sectors .outOfRange P Q (write sectors inode offset data) d (fun _ _ => True) := by
  unfold write
  refine (openFile_guarded hP inode).bind ?_
  rintro e d' ⟨rfl, hin, he, hkind⟩
  by_cases hstop : offset + data.length < wordSize
  · rw [show checkedAdd offset data.length = some (offset + data.length) from if_pos hstop]
    refine (hgrow hstop hin e he hkind).bind fun e' d₁ hcleared => ?_
    refine (loops_guarded hP hsize (Nat.le_add_right _ _) hcleared).bind fun _ d₂ hdata => ?_
    refine (hdata data rfl).bind fun _ d₃ _ => ?_
    exact (writeInode_guarded hP hin hwrite _).bind fun _ _ _ => Guarded.pure trivial
  · rw [show checkedAdd offset data.length = none from if_neg hstop]
    exact Guarded.throw _

/-- `truncate`, likewise. -/
theorem truncate_guarded {len : Nat} (hwrite : P ⟨.metadata, true, inodeSector (inode - 1)⟩)
    (hgrow : InTable inode → ∀ e, record d inode = .ok e → e.kind = 1 →
      Guarded sectors .outOfRange P Q (ensureCapacity sectors inode e (sectorsForLen len)) d
        (fun e' _ => Cleared sectors P len len e')) :
    Guarded sectors .outOfRange P Q (truncate sectors inode len) d (fun _ _ => True) := by
  unfold truncate
  refine (openFile_guarded hP inode).bind ?_
  rintro e d' ⟨rfl, hin, he, hkind⟩
  refine (hgrow hin e he hkind).bind fun e' d₁ hcleared => ?_
  refine (loops_guarded hP hsize (le_refl _) hcleared).bind fun _ d₂ _ => ?_
  exact (writeInode_guarded hP hin hwrite _).conseq fun _ _ _ => trivial

end Programs

end GenericKernel.Fs
