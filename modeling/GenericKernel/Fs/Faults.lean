import GenericKernel.Fs.Crash
import GenericKernel.Lib.BlockTriple

/-!
# Names under device faults

The device may fail any call, an operation may be cut off anywhere, and offsets
may be so large that rounding up the end of a request wraps: then `zero_range`
runs over foreign sectors, and for a file without sectors over the inode table.
Even so a table on disk only loses records on the way (`Thinned`), so names stay
unique: every execution keeps `Tidy`, which is weaker than `Consistent`, unless a
failed read makes a `create` believe that a taken name is free.
-/

namespace GenericKernel.Fs

open GenericKernel.Lib

/-- The arguments are values of their Rust types; a slice has at most
`isize::MAX` bytes. -/
def Op.Typed : Op → Prop
  | write _ offset data => offset < wordSize ∧ data.length < 2 ^ 63
  | truncate _ len => len < wordSize
  | _ => True

/-- Where a file may be: nowhere yet, or in an extent not too far into the data
area. -/
inductive Placed (sectors : Nat) (e : DiskInode) : Prop
  | nowhere : e.sectors = 0 → e.first = 0 → (e.len.toNat = 0 ∨ 2 ^ 62 ≤ e.len.toNat) →
      Placed sectors e
  | somewhere : 0 < e.sectors → DATA_START ≤ e.first → e.first ≤ 2 ^ 40 →
      e.first + e.sectors ≤ sectors → Placed sectors e

/-- What a table keeps under faults and wild offsets. -/
structure Tidy (sectors : Nat) (T : Table) : Prop where
  root : (T 1).kind ≠ 1
  named : Named T
  unique : UniqueNames T
  placed : ∀ i ∈ inodeNumbers, (T i).kind = 1 → Placed sectors (T i)

/-- Some records have been cleared. -/
def Thinned (T T' : Table) : Prop := ∀ i, InTable i → T' i = T i ∨ T' i = DiskInode.empty

section Tables

variable {sectors inode : Nat} {T T' : Table} {e : DiskInode}

/-- Live records of a thinned table are those of the table. -/
theorem Thinned.live (h : Thinned T T') {i : Nat} (hi : i ∈ inodeNumbers)
    (hlive : (T' i).kind ≠ 0) : T' i = T i := by
  rcases h i (inTable_of_mem hi) with hsame | hempty
  · exact hsame
  · rw [hempty] at hlive
    exact absurd rfl hlive

theorem Tidy.extentsIn (h : Tidy sectors T) : ExtentsIn sectors T := by
  intro i hi hextent
  cases h.placed i hi hextent.1 with
  | nowhere hnone _ _ =>
      have := hextent.sectors_pos
      omega
  | somewhere _ _ _ hhigh => exact hhigh

theorem Tidy.thin (h : Tidy sectors T) (hthin : Thinned T T') : Tidy sectors T' := by
  have hone : InTable 1 := ⟨le_refl 1, by decide⟩
  refine ⟨?_, fun i hi hlive => ?_, h.unique.congr fun i hi hlive => ?_, fun i hi hkind => ?_⟩
  · rcases hthin 1 hone with hsame | hempty
    · rw [hsame]
      exact h.root
    · rw [hempty]
      decide
  · have hsame := hthin.live hi hlive
    rw [hsame] at hlive ⊢
    exact h.named i hi hlive
  · have hsame := hthin.live hi hlive
    rw [hsame] at hlive ⊢
    exact ⟨hlive, rfl, rfl⟩
  · have hlive : (T' i).kind ≠ 0 := by
      rw [hkind]
      decide
    rw [hthin.live hi hlive] at hkind ⊢
    exact h.placed i hi hkind

/-- A record that is free of name clashes. -/
theorem Tidy.insert (h : Tidy sectors T) (hi : inode ∈ inodeNumbers)
    (hname : ∃ s, e.nameText = .ok s) (hplaced : e.kind = 1 → Placed sectors e)
    (hclash : ∀ j ∈ inodeNumbers, j ≠ inode → (T j).kind ≠ 0 → e.parent = (T j).parent →
      e.nameText ≠ (T j).nameText) : Tidy sectors (Function.update T inode e) := by
  have hself : Function.update T inode e inode = e := Function.update_self _ _ _
  have hother : ∀ i, i ≠ inode → Function.update T inode e i = T i :=
    fun i hne => Function.update_of_ne hne _ _
  have hroot : 1 ≠ inode := by
    have := (mem_inodeNumbers.mp hi).1
    omega
  refine ⟨by rw [hother 1 hroot]; exact h.root, fun i hi' hlive => ?_, h.unique.insert hclash,
    fun i hi' hkind => ?_⟩
  · by_cases heq : i = inode
    · rw [heq, hself]
      exact hname
    · rw [hother i heq] at hlive ⊢
      exact h.named i hi' hlive
  · by_cases heq : i = inode
    · rw [heq, hself] at hkind ⊢
      exact hplaced hkind
    · rw [hother i heq] at hkind ⊢
      exact h.placed i hi' hkind

/-- A file put back with another place or length. -/
theorem Tidy.put (h : Tidy sectors T) (hthin : Thinned T T') (hi : inode ∈ inodeNumbers)
    (hlive : (T inode).kind ≠ 0) (hparent : e.parent = (T inode).parent)
    (hname : e.nameText = (T inode).nameText) (hplaced : Placed sectors e) :
    Tidy sectors (Function.update T' inode e) := by
  refine (h.thin hthin).insert hi ?_ (fun _ => hplaced) fun j hj hne hlive' hp hn => ?_
  · rw [hname]
    exact h.named inode hi hlive
  · have hsame := hthin.live hj hlive'
    rw [hsame] at hlive' hp hn
    exact hne (h.unique j hj inode hi hlive' hlive (hp.symm.trans hparent)
      (hn.symm.trans hname))

/-- A cleared record. -/
theorem Tidy.clear (h : Tidy sectors T) (inode : Nat) :
    Tidy sectors (Function.update T inode DiskInode.empty) := by
  refine h.thin fun i _ => ?_
  by_cases heq : i = inode
  · rw [heq, Function.update_self]
    exact .inr rfl
  · rw [Function.update_of_ne heq]
    exact .inl rfl

end Tables

/-! ## Disks -/

/-- The disk shows a tidy table. -/
def TidyDisk (sectors : Nat) (d : Disk) : Prop := ∃ T, Shows d T ∧ Tidy sectors T

/-- The disk shows `T`, or what is left of it. -/
def Remains (T : Table) (d : Disk) : Prop := ∃ T', Shows d T' ∧ Thinned T T'

section Disks

variable {sectors block : Nat} {T : Table} {d : Disk}

theorem remains_of_shows (h : Shows d T) : Remains T d := ⟨T, h, fun _ _ => .inl rfl⟩

theorem Remains.tidy (h : Remains T d) (hT : Tidy sectors T) : TidyDisk sectors d := by
  obtain ⟨T', hshows, hthin⟩ := h
  exact ⟨T', hshows, hT.thin hthin⟩

/-- Writing to the data area leaves the table alone. -/
theorem Shows.data (h : Shows d T) (hblock : DATA_START ≤ block) (contents : Sector) :
    Shows (Function.update d block contents) T :=
  h.congr fun s _ hs => Function.update_of_ne (by omega) _ _

theorem Remains.data (h : Remains T d) (hblock : DATA_START ≤ block) (contents : Sector) :
    Remains T (Function.update d block contents) := by
  obtain ⟨T', hshows, hthin⟩ := h
  exact ⟨T', hshows.data hblock contents, hthin⟩

/-- Zeroing a sector of the table clears its records. -/
theorem Remains.zero (h : Remains T d) (block : Nat) :
    Remains T (Function.update d block zeroSector) := by
  obtain ⟨T', hshows, hthin⟩ := h
  refine ⟨fun i => if inodeSector (i - 1) = block then DiskInode.empty else T' i, fun i hi => ?_,
    fun i hi => ?_⟩
  · dsimp only
    by_cases hsector : inodeSector (i - 1) = block
    · rw [if_pos hsector]
      refine record_of_zero ?_
      rw [hsector, Function.update_self]
    · rw [if_neg hsector]
      unfold record
      rw [Function.update_of_ne hsector]
      exact hshows i hi
  · dsimp only
    by_cases hsector : inodeSector (i - 1) = block
    · rw [if_pos hsector]
      exact .inr rfl
    · rw [if_neg hsector]
      exact hthin i hi

end Disks

/-! ## The search stays near the start -/

/-- The walk never moves the candidate far. -/
theorem firstGap_le {count sectors a : Nat} (l : List (Nat × Nat)) :
    ∀ {candidate : Nat}, (∀ x ∈ l, Plain sectors x) →
    candidate + l.length * (count + 2 ^ 32) + count < wordSize →
    firstGap count sectors candidate l = some a →
    a ≤ candidate + l.length * (count + 2 ^ 32) := by
  induction l with
  | nil =>
      intro candidate _ _ hfound
      unfold firstGap at hfound
      by_cases hfit : wrappingAdd candidate count ≤ sectors
      · rw [if_pos hfit] at hfound
        obtain rfl := Option.some.inj hfound
        exact Nat.le_add_right _ _
      · rw [if_neg hfit] at hfound
        cases hfound
  | cons x l ih =>
      intro candidate hplain hword hfound
      obtain ⟨start, stop⟩ := x
      have hshort : stop ≤ start + 2 ^ 32 := (hplain _ List.mem_cons_self).short
      rw [List.length_cons, Nat.succ_mul] at hword ⊢
      rw [firstGap, wrappingAdd_of_lt (by omega)] at hfound
      by_cases hgap : candidate + count ≤ start
      · rw [if_pos hgap] at hfound
        obtain rfl := Option.some.inj hfound
        exact Nat.le_add_right _ _
      · rw [if_neg hgap] at hfound
        have := ih (fun y hy => hplain y (List.mem_cons_of_mem _ hy))
          (show max candidate stop + l.length * (count + 2 ^ 32) + count < wordSize by omega) hfound
        omega

theorem findExtentTable_le {sectors count exclude a : Nat} {T : Table} (hn : sectors < wordSize)
    (hT : ExtentsIn sectors T) (hcount : count < 2 ^ 32)
    (h : findExtentTable sectors T count exclude = .ok a) : a ≤ 2 ^ 40 := by
  unfold findExtentTable at h
  by_cases hzero : count = 0
  · rw [if_pos hzero] at h
    obtain rfl := Except.ok.inj h
    exact Nat.zero_le _
  · rw [if_neg hzero] at h
    have hlength : ((usedTable T exclude inodeNumbers).mergeSort
        fun a b => a.1 ≤ b.1).length ≤ 63 := by
      rw [List.length_mergeSort]
      exact length_usedTable_le T exclude inodeNumbers
    have hmul := Nat.mul_le_mul_right (count + 2 ^ 32) hlength
    have hstart : DATA_START = 17 := rfl
    cases hfound : firstGap count sectors DATA_START
        ((usedTable T exclude inodeNumbers).mergeSort fun a b => a.1 ≤ b.1) with
    | none =>
        rw [hfound] at h
        cases h
    | some b =>
        rw [hfound] at h
        obtain rfl := Except.ok.inj h
        have := firstGap_le _ (sortedTable_plain hn hT exclude) (by rw [wordSize]; omega) hfound
        omega

/-! ## The file operations -/

/-- A device that may fail some calls and has to keep a tidy table. -/
def tidyEnv (sectors : Nat) (faults : Nat → Prop) : Env Sector BlockError :=
  ⟨sectors, .outOfRange, TidyDisk sectors, faults⟩

/-- A whole sector of zeros. -/
theorem splice_zeros (raw : Sector) {bytes : List UInt8} (hlength : bytes.length = SECTOR_SIZE)
    (hzero : ∀ b ∈ bytes, b = 0) : splice raw 0 bytes = zeroSector := by
  refine Vector.ext fun i hi => ?_
  rw [getElem_splice, if_pos (by omega)]
  unfold zeroSector
  rw [Vector.getElem_replicate, Nat.sub_zero]
  have hi' : i < bytes.length := by omega
  rw [List.getElem?_eq_getElem hi', Option.getD_some]
  exact hzero _ (List.getElem_mem hi')

section Programs

variable {sectors inode : Nat} {faults : Nat → Prop} {T : Table} {e : DiskInode}

theorem shows_tidy (hT : Tidy sectors T) : ∀ d, Shows d T → (tidyEnv sectors faults).inv d :=
  fun _ hd => ⟨T, hd, hT⟩

theorem remains_tidy (hT : Tidy sectors T) : ∀ d, Remains T d → (tidyEnv sectors faults).inv d :=
  fun _ hd => hd.tidy hT

theorem openFile_triple (hlow : DATA_START ≤ sectors) (hT : Tidy sectors T) (inode : Nat) :
    Triple (tidyEnv sectors faults) (fun d => Shows d T) (openFile inode)
      (fun e d => (inode ∈ inodeNumbers ∧ (T inode).kind = 1 ∧ (T inode).Storable ∧ e = T inode) ∧
        Shows d T) := by
  refine Reads.triple (shows_tidy hT) fun d hd => ?_
  rcases openFile_reads (E := tidyEnv sectors faults) (shows_tidy hT d hd) hlow hd hT.root inode
    with ⟨hi, hkind, k, hreads⟩ | ⟨_, k, e, hreads⟩
  · refine ⟨k, _, hreads, fun a ha => ⟨⟨hi, hkind, hd.storable (inTable_of_mem hi), ?_⟩, hd⟩⟩
    exact (Except.ok.inj ha).symm
  · exact ⟨k, _, hreads, fun a ha => nomatch ha⟩

/-- The entry that `ensure_capacity` returns: the same file, in its place or in a
new one. -/
structure Refit (sectors : Nat) (T : Table) (inode needed : Nat) (e : DiskInode) : Prop where
  same : ∃ start count, e = { T inode with startSector := start, sectorCount := count }
  room : needed ≤ e.sectors
  placed : Placed sectors e

theorem ensureCapacity_triple (hlow : DATA_START ≤ sectors) (hn : sectors < wordSize)
    (hT : Tidy sectors T) (hi : inode ∈ inodeNumbers) (hkind : (T inode).kind = 1) {needed : Nat}
    (hneeded : needed ≤ 2 ^ 55) :
    Triple (tidyEnv sectors faults) (fun d => Shows d T)
      (ensureCapacity sectors inode (T inode) needed)
      (fun e d => Refit sectors T inode needed e ∧ Shows d T) := by
  unfold ensureCapacity
  by_cases hfits : needed ≤ (T inode).sectorCount.toNat
  · rw [if_pos hfits]
    exact Triple.pure fun d hd => ⟨⟨⟨_, _, rfl⟩, hfits, hT.placed inode hi hkind⟩, hd⟩
  rw [if_neg hfits]
  have hfind : Triple (tidyEnv sectors faults) (fun d => Shows d T)
      (findExtent sectors needed inode)
      (fun a d => findExtentTable sectors T needed inode = .ok a ∧ Shows d T) := by
    refine Reads.triple (shows_tidy hT) fun d hd => ?_
    obtain ⟨k, hreads⟩ := findExtent_reads (E := tidyEnv sectors faults) (shows_tidy hT d hd) hlow
      hd sectors needed inode
    exact ⟨k, _, hreads, fun a ha => ⟨ha, hd⟩⟩
  refine hfind.bind fun a => Triple.intro fun ha => ?_
  have hspec := findExtentTable_spec hn hT.extentsIn inode (show 0 < needed by omega) hneeded
  rw [ha] at hspec
  have hrun : FreeRun sectors T inode needed a := hspec.1
  -- every sector of the new run lies in the data area
  have hwrite : ∀ i < needed, ∀ contents : Sector, Triple (tidyEnv sectors faults)
      (fun d => Shows d T) (writeExtent a i contents) (fun _ d => Shows d T) := by
    intro i hlt contents
    have hsector : wrappingAdd a i = a + i :=
      wrappingAdd_of_lt (by have := hrun.high; omega)
    unfold writeExtent
    rw [hsector]
    refine Triple.writeBlock (shows_tidy hT) (shows_tidy hT) mapBlock _ _ fun d hd _ => ?_
    exact hd.data (by have := hrun.low; omega) contents
  have hcopy : ∀ i < (T inode).sectorCount.toNat, Triple (tidyEnv sectors faults)
      (fun d => Shows d T) (do
        let buffer ← readExtent (T inode).startSector.toNat i
        writeExtent a i buffer) (fun _ d => Shows d T) := by
    intro i hlt
    have hread := Triple.readBlock (L := Purpose) (E := tidyEnv sectors faults) (shows_tidy hT) mapBlock
      (.extent (T inode).startSector.toNat i) (wrappingAdd (T inode).startSector.toNat i)
    refine hread.bind fun buffer => ?_
    exact (hwrite i (by omega) buffer).conseq (fun d hd => hd.1) fun _ _ hd => hd
  refine (Triple.forRange fun i hlt => hwrite i hlt zeroSector).bind fun _ => ?_
  refine (Triple.forRange hcopy).bind fun _ => ?_
  by_cases hsmall : needed < 2 ^ 32
  · rw [if_pos hsmall]
    refine Triple.pure fun d hd => ⟨⟨⟨_, _, rfl⟩, ?_, ?_⟩, hd⟩
    · exact le_of_eq (UInt32.toNat_ofNat_of_lt' hsmall).symm
    · have hsectors : (relocated (T inode) a needed).sectors = needed :=
        UInt32.toNat_ofNat_of_lt' hsmall
      have hfirst := relocated_first hn hrun (T inode)
      have hnear := findExtentTable_le hn hT.extentsIn hsmall ha
      refine Placed.somewhere (e := relocated (T inode) a needed) (by omega) ?_ ?_ ?_
      · rw [hfirst]
        exact hrun.low
      · rw [hfirst]
        exact hnear
      · rw [hfirst, hsectors]
        exact hrun.high
  · rw [if_neg hsmall]
    exact Triple.throw (shows_tidy hT)

/-- The loop over the sectors of a file, wherever that is: every sector it writes
lies in the data area, or is zeroed as a whole. -/
theorem overlay_triple (hT : Tidy sectors T) {start : Nat} (fuel : Nat) :
    ∀ {position : Nat} {bytes : List UInt8},
    start + (position + bytes.length) / SECTOR_SIZE < wordSize →
    (∀ q, position ≤ q → q < position + bytes.length → q = position ∨ q % SECTOR_SIZE = 0 →
      DATA_START ≤ start + q / SECTOR_SIZE ∨ q % SECTOR_SIZE = 0 ∧
        q + SECTOR_SIZE ≤ position + bytes.length ∧ ∀ b ∈ bytes, b = 0) →
    Triple (tidyEnv sectors faults) (Remains T) (overlay start fuel position bytes)
      (fun _ => Remains T) := by
  have hsize : SECTOR_SIZE = 512 := rfl
  induction fuel with
  | zero => exact fun _ _ => Triple.pure fun _ hd => hd
  | succ fuel ih =>
      intro position bytes hword hplace
      unfold overlay
      by_cases hnil : bytes.length = 0
      · rw [if_pos hnil]
        exact Triple.pure fun _ hd => hd
      rw [if_neg hnil]
      generalize hchunk : min (SECTOR_SIZE - position % SECTOR_SIZE) bytes.length = chunk
      have hsector : wrappingAdd start (position / SECTOR_SIZE) =
          start + position / SECTOR_SIZE := by
        refine wrappingAdd_of_lt (lt_of_le_of_lt ?_ hword)
        exact Nat.add_le_add_left (Nat.div_le_div_right (Nat.le_add_right _ _)) _
      dsimp only [readExtent, writeExtent]
      rw [hsector, hchunk]
      refine (Triple.readBlock (remains_tidy hT) mapBlock _ _).bind fun buffer => ?_
      refine Triple.bind (R := fun _ => Remains T) ?_ fun _ => ?_
      · refine Triple.writeBlock (fun d hd => remains_tidy hT d hd.1) (remains_tidy hT) mapBlock _ _
          fun d hd _ => ?_
        obtain ⟨hremains, _, rfl⟩ := hd
        rcases hplace position (le_refl _) (by omega) (.inl rfl) with hdata | ⟨hstart, hfull, hzero⟩
        · exact hremains.data hdata _
        · have hall : chunk = SECTOR_SIZE := by omega
          rw [hstart, splice_zeros _ (by rw [List.length_take]; omega)
            fun b hb => hzero b (List.mem_of_mem_take hb)]
          exact hremains.zero _
      · refine ih ?_ fun q hq hlt halign => ?_
        · have hend : position + chunk + (bytes.drop chunk).length = position + bytes.length := by
            rw [List.length_drop]
            omega
          rw [hend]
          exact hword
        · rw [List.length_drop] at hlt ⊢
          have haligned : q % SECTOR_SIZE = 0 := by
            rcases halign with rfl | halign
            · rw [hsize] at hchunk ⊢
              omega
            · exact halign
          rcases hplace q (by omega) (by omega) (.inr haligned) with hdata | ⟨_, hfull, hzero⟩
          · exact .inl hdata
          · exact .inr ⟨haligned, by omega, fun b hb => hzero b (List.mem_of_mem_drop hb)⟩

/-- What the two loops of a file operation do: the end of the request is not
rounded up to zero sectors, or it lies so far out that the loops zero every sector
of the table they meet. -/
theorem loops_triple (hT : Tidy sectors T) {offset needed : Nat} {data : List UInt8}
    (he : Refit sectors T inode needed e) (hlen : data.length < 2 ^ 63)
    (hstop : offset + data.length < wordSize)
    (hneeded : needed = sectorsForLen (offset + data.length)) :
    Triple (tidyEnv sectors faults) (Remains T) (fillGap e offset) (fun _ => Remains T) ∧
    Triple (tidyEnv sectors faults) (Remains T)
      (overlay e.startSector.toNat data.length offset data) (fun _ => Remains T) := by
  have hsize : SECTOR_SIZE = 512 := rfl
  have hstart : DATA_START = 17 := rfl
  have hword : ∀ q, q ≤ offset + data.length → e.first ≤ 2 ^ 40 →
      e.startSector.toNat + q / SECTOR_SIZE < wordSize := by
    intro q hq hfirst
    have hfirst : e.startSector.toNat ≤ 2 ^ 40 := hfirst
    rw [hsize]
    rw [wordSize] at hstop ⊢
    omega
  have hnear : e.first ≤ 2 ^ 40 := by
    cases he.placed with
    | nowhere _ hfirst _ => omega
    | somewhere _ _ hfirst _ => exact hfirst
  -- a file without sectors gets here only if nothing is asked for, or far out
  have hfar : e.sectors = 0 → offset + data.length = 0 ∨ 2 ^ 62 ≤ offset := by
    intro hnone
    have hroom := he.room
    rcases (sectorsForLen_eq_zero hstop).mp (by omega) with hzero | hwrap
    · exact .inl hzero
    · rw [hsize, wordSize] at hwrap
      exact .inr (by omega)
  have hplace : ∀ q, 2 ^ 62 - 512 ≤ q ∨ DATA_START ≤ e.first →
      DATA_START ≤ e.startSector.toNat + q / SECTOR_SIZE := by
    intro q hq
    rw [hstart, hsize]
    rcases hq with hq | hq
    · omega
    · have hq : 17 ≤ e.startSector.toNat := hq
      omega
  refine ⟨?_, ?_⟩
  · unfold fillGap
    by_cases hgap : e.len.toNat < offset
    · rw [if_pos hgap]
      unfold zeroRange
      rw [if_neg (by omega)]
      refine overlay_triple hT _ ?_ fun q hq hlt halign => ?_
      · rw [List.length_replicate]
        exact hword _ (by omega) hnear
      · rw [List.length_replicate] at hlt ⊢
        have hzeros : ∀ b ∈ List.replicate (offset - e.len.toNat) (0 : UInt8), b = 0 :=
          fun b hb => List.eq_of_mem_replicate hb
        cases he.placed with
        | somewhere _ hlow _ _ => exact .inl (hplace q (.inr hlow))
        | nowhere hnone _ hlenCases =>
            rcases hfar hnone with hzero | hfar
            · omega
            · by_cases hclose : 2 ^ 62 - 512 ≤ q
              · exact .inl (hplace q (.inl hclose))
              · have haligned : q % SECTOR_SIZE = 0 := by
                  rw [hsize] at halign ⊢
                  omega
                exact .inr ⟨haligned, by rw [hsize]; omega, hzeros⟩
    · rw [if_neg hgap]
      exact Triple.pure fun _ hd => hd
  · refine overlay_triple hT _ (hword _ (le_refl _) hnear) fun q hq hlt _ => .inl ?_
    cases he.placed with
    | somewhere _ hlow _ _ => exact hplace q (.inr hlow)
    | nowhere hnone _ _ =>
        rcases hfar hnone with hzero | hfar
        · omega
        · exact hplace q (.inl (by omega))

/-- Putting the record back. -/
theorem commit_triple (hlow : DATA_START ≤ sectors) (hT : Tidy sectors T)
    (hi : inode ∈ inodeNumbers) (hkind : (T inode).kind = 1) (hstorable : (T inode).Storable)
    {needed : Nat} (he : Refit sectors T inode needed e) {newLen : UInt64}
    (hplaced : Placed sectors { e with len := newLen }) :
    Triple (tidyEnv sectors faults) (Remains T) (writeInode inode { e with len := newLen })
      (fun _ d => TidyDisk sectors d) := by
  obtain ⟨start, count, hsame⟩ := he.same
  refine Runs.triple fun d hd => ?_
  have hput : TidyDisk sectors (putRecord d inode { e with len := newLen }) := by
    obtain ⟨T', hshows, hthin⟩ := hd
    refine ⟨_, hshows.put (inTable_of_mem hi) ?_, hT.put hthin hi ?_ ?_ ?_ hplaced⟩
    · rw [hsame]
      exact hstorable
    · rw [hkind]
      decide
    · rw [hsame]
    · rw [hsame]
      rfl
  exact ⟨_, _, writeInode_runs (E := tidyEnv sectors faults) (hd.tidy hT) hlow (inTable_of_mem hi)
    hput, hput, fun _ _ => hput⟩

/-- Where the file is afterwards. -/
theorem Refit.resize {needed stop : Nat} (he : Refit sectors T inode needed e)
    (hstop : stop < wordSize) (hneeded : needed = sectorsForLen stop) {newLen : UInt64}
    (hnew : newLen.toNat = stop ∨ newLen.toNat = e.len.toNat ∨ 2 ^ 62 ≤ newLen.toNat) :
    Placed sectors { e with len := newLen } := by
  cases he.placed with
  | somewhere hpos hlow hnear hhigh => exact .somewhere hpos hlow hnear hhigh
  | nowhere hnone hfirst hlen =>
      refine .nowhere hnone hfirst ?_
      show newLen.toNat = 0 ∨ 2 ^ 62 ≤ newLen.toNat
      have hroom := he.room
      have hsize : SECTOR_SIZE = 512 := rfl
      rcases hnew with hnew | hnew | hnew
      · rcases (sectorsForLen_eq_zero hstop).mp (by omega) with hzero | hwrap
        · exact .inl (by omega)
        · rw [hsize, wordSize] at hwrap
          exact .inr (by omega)
      · rw [hnew]
        exact hlen
      · exact .inr hnew

variable (hlow : DATA_START ≤ sectors)
include hlow

theorem write_triple (hn : sectors < wordSize) (hT : Tidy sectors T)
    (inode : Nat) {offset : Nat} {data : List UInt8} (hlen : data.length < 2 ^ 63) :
    Triple (tidyEnv sectors faults) (fun d => Shows d T) (write sectors inode offset data)
      (fun _ d => TidyDisk sectors d) := by
  unfold write
  refine (openFile_triple hlow hT inode).bind fun e => Triple.intro ?_
  rintro ⟨hi, hkind, hstorable, rfl⟩
  cases hadd : checkedAdd offset data.length with
  | none => exact Triple.throw (shows_tidy hT)
  | some stop =>
      obtain ⟨rfl, hstop⟩ := checkedAdd_eq_some.mp hadd
      refine (ensureCapacity_triple hlow hn hT hi hkind (sectorsForLen_le _)).bind
        fun e => Triple.intro fun he => ?_
      obtain ⟨hgap, hdata⟩ := @loops_triple sectors inode faults T e hT offset _ data he hlen hstop
        rfl
      have hplaced : Placed sectors { e with
          len := max e.len (UInt64.ofNat (offset + data.length)) } := by
        refine he.resize hstop rfl ?_
        have hend : (UInt64.ofNat (offset + data.length)).toNat = offset + data.length :=
          UInt64.toNat_ofNat_of_lt' (by rw [wordSize] at hstop; exact hstop)
        rw [toNat_max, hend]
        rcases le_total e.len.toNat (offset + data.length) with hle | hle
        · exact .inl (max_eq_right hle)
        · exact .inr (.inl (max_eq_left hle))
      have hcommit := @commit_triple sectors inode faults T e hlow hT hi hkind hstorable _ he _
        hplaced
      have hrest := hgap.bind fun _ => hdata.bind fun _ => hcommit.bind fun _ =>
        Triple.pure (a := data.length) (Q := fun _ d => TidyDisk sectors d) fun d hd => hd
      exact hrest.conseq (fun d hd => remains_of_shows hd) fun _ _ hd => hd

theorem truncate_triple (hn : sectors < wordSize)
    (hT : Tidy sectors T) (inode : Nat) {len : Nat} (hlen : len < wordSize) :
    Triple (tidyEnv sectors faults) (fun d => Shows d T) (truncate sectors inode len)
      (fun _ d => TidyDisk sectors d) := by
  unfold truncate
  refine (openFile_triple hlow hT inode).bind fun e => Triple.intro ?_
  rintro ⟨hi, hkind, hstorable, rfl⟩
  refine (ensureCapacity_triple hlow hn hT hi hkind (sectorsForLen_le _)).bind
    fun e => Triple.intro fun he => ?_
  obtain ⟨hgap, _⟩ := @loops_triple sectors inode faults T e hT len _ [] he (by decide)
    (by rw [List.length_nil, Nat.add_zero]; exact hlen) (by rw [List.length_nil, Nat.add_zero])
  have hplaced : Placed sectors { e with len := UInt64.ofNat len } :=
    he.resize hlen rfl (.inl (UInt64.toNat_ofNat_of_lt' (by rw [wordSize] at hlen; exact hlen)))
  have hcommit := @commit_triple sectors inode faults T e hlow hT hi hkind hstorable _ he _ hplaced
  exact (hgap.bind fun _ => hcommit).conseq (fun d hd => remains_of_shows hd) fun _ _ hd => hd

theorem remove_triple (hT : Tidy sectors T) (parent : Nat) (name : String) :
    Triple (tidyEnv sectors faults) (fun d => Shows d T) (remove parent name)
      (fun _ d => TidyDisk sectors d) := by
  have hfind : Triple (tidyEnv sectors faults) (fun d => Shows d T) (findChild parent name)
      (fun i d => InTable i ∧ Shows d T) := by
    refine Reads.triple (shows_tidy hT) fun d hd => ?_
    rcases findChild_reads (E := tidyEnv sectors faults) (shows_tidy hT d hd) hlow hd hT.named
      parent name with ⟨i, hchild, hreads⟩ | ⟨_, k, hreads⟩
    · refine ⟨_, _, hreads, fun a ha => ⟨?_, hd⟩⟩
      rw [← Except.ok.inj ha]
      exact inTable_of_mem hchild.number
    · exact ⟨k, _, hreads, fun a ha => nomatch ha⟩
  have hwrite : ∀ i, InTable i → Triple (tidyEnv sectors faults) (fun d => Shows d T)
      (writeInode i DiskInode.empty) (fun _ d => TidyDisk sectors d) := by
    intro i hi
    refine Runs.triple fun d hd => ?_
    have hput : TidyDisk sectors (putRecord d i DiskInode.empty) :=
      ⟨_, hd.put hi ⟨by decide, by decide⟩, hT.clear i⟩
    exact ⟨_, _, writeInode_runs (E := tidyEnv sectors faults) (shows_tidy hT d hd) hlow hi hput,
      hput, fun _ _ => hput⟩
  unfold remove
  refine hfind.bind fun i => Triple.intro fun hi => ?_
  refine Triple.bind (R := fun _ d => Shows d T) ?_ fun entry => ?_
  · refine Reads.triple (shows_tidy hT) fun d hd => ?_
    exact ⟨1, _, readInode_reads (E := tidyEnv sectors faults) (shows_tidy hT d hd) hlow hi,
      fun _ _ => hd⟩
  · by_cases hdir : entry.kind = 2
    · rw [if_pos hdir]
      refine Triple.bind (R := fun _ d => Shows d T) ?_ fun found => ?_
      · refine Reads.triple (shows_tidy hT) fun d hd => ?_
        exact ⟨_, _, scan_reads (E := tidyEnv sectors faults) (shows_tidy hT d hd) hlow hd
          (isChildOf i) inodeNumbers fun j hj => inTable_of_mem hj, fun _ _ => hd⟩
      · cases found with
        | some u => exact Triple.throw (shows_tidy hT)
        | none => exact hwrite i hi
    · rw [if_neg hdir]
      exact hwrite i hi

/-- `create` keeps names unique as long as its lookup sees what is there. -/
theorem create_tidy {parent : Nat} {name : String} {kind : UInt8} {d : Disk}
    {log : List (Event (@BlockOp.Reply Purpose Sector BlockError))}
    {o : Outcome Empty (Except VfsError Nat)} {s' : DeviceState Sector} (hd : Shows d T) (hT : Tidy sectors T)
    (hkind : kind = 1 ∨ kind = 2)
    (hlookup : ∀ i, IsChild T parent name i → (∃ u ∈ inodeNumbers, (T u).kind = 0) →
      ∀ j, 0 < j → j < i → ¬ faults j)
    (hexec : Exec ((faulty sectors faults).spec Purpose) (create parent name kind).run ⟨d, 0⟩ log
      o s') : TidyDisk sectors s'.disk := by
  have hdone : ∀ i, Created d T parent name kind (.ok i)
      (putRecord d i (newEntry parent name kind)) →
      TidyDisk sectors (putRecord d i (newEntry parent name kind)) := by
    intro i hcreated
    generalize hd₁ : putRecord d i (newEntry parent name kind) = d₁ at hcreated
    cases hcreated with
    | done hvalid hin hdir hnone hleast =>
        have hparent : (newEntry parent name kind).parent.toNat = parent := by
          refine UInt64.toNat_ofNat_of_lt' ?_
          have := hin.2
          have : INODE_COUNT = 64 := rfl
          show parent < 2 ^ 64
          omega
        have hname := nameText_newEntry parent kind hvalid
        have hstorable : (newEntry parent name kind).Storable := by
          refine newEntry_storable parent hvalid ?_
          rcases hkind with rfl | rfl <;> decide
        refine ⟨_, hd.put (inTable_of_mem hleast.1.1) hstorable,
          hT.insert hleast.1.1 ⟨name, hname⟩ (fun _ => .nowhere rfl rfl (.inl rfl)) ?_⟩
        intro j hj _ hlive hp hn
        refine hnone j ⟨hj, hlive, ?_, ?_⟩
        · rw [← hp]
          exact hparent
        · rw [← hn]
          exact hname
  obtain ⟨r, d', hcreated, hruns⟩ := @create_runsFrom (tidyEnv sectors faults) d T parent name
    (shows_tidy hT d hd) hlow hd hT.named 0 kind
    (fun i hi hu j hj hlt => hlookup i hi hu j hj (by omega)) hdone
  refine hruns.exec ?_ hexec
  cases hcreated with
  | badName _ => exact shows_tidy hT d hd
  | badParent _ => exact shows_tidy hT d hd
  | taken _ => exact shows_tidy hT d hd
  | full _ _ => exact shows_tidy hT d hd
  | done hvalid hin hdir hnone hleast => exact hdone _ (.done hvalid hin hdir hnone hleast)

/-- **Every execution of an operation keeps the table tidy.** -/
theorem exec_tidy {op : Op} {d : Disk} {log : List (Event (@BlockOp.Reply Purpose Sector BlockError))}
    {o : Outcome Empty (Except VfsError op.Result)} {s' : DeviceState Sector} (hn : sectors < wordSize) (hd : Shows d T) (hT : Tidy sectors T)
    (htyped : op.Typed) (hlookup : op.LookupWorks T faults)
    (hexec : Exec ((faulty sectors faults).spec Purpose) (op.prog sectors).run ⟨d, 0⟩ log o s') :
    TidyDisk sectors s'.disk := by
  cases op with
  | createFile parent name => exact create_tidy hlow hd hT (.inl rfl) hlookup hexec
  | createDir parent name => exact create_tidy hlow hd hT (.inr rfl) hlookup hexec
  | write inode offset data =>
      exact (@write_triple _ faults _ hlow hn hT inode _ _ htyped.2).exec (fun _ _ h => h) hd hexec
  | truncate inode len =>
      exact (@truncate_triple _ faults _ hlow hn hT inode _ htyped).exec (fun _ _ h => h) hd hexec
  | remove parent name =>
      exact (@remove_triple _ faults _ hlow hT parent name).exec (fun _ _ h => h) hd hexec

end Programs

/-! ## Whole runs -/

/-- The disks that a fresh filesystem goes through when each operation meets the
condition `ok` on the disk it starts from and on the calls that may fail. An
operation may also be cut off. -/
inductive Disturbed (sectors : Nat) (ok : Disk → Op → (Nat → Prop) → Prop) : Disk → Prop
  | fresh {d d₀ : Disk} : sectors < wordSize →
      evaluate sectors .outOfRange (mount sectors true) d = (.ok true, d₀) →
      Disturbed sectors ok d₀
  | step {d : Disk} {op : Op} {faults : Nat → Prop}
      {log : List (Event (@BlockOp.Reply Purpose Sector BlockError))}
      {o : Outcome Empty (Except VfsError op.Result)} {s' : DeviceState Sector} :
      Disturbed sectors ok d → op.Typed → ok d op faults →
      Exec ((faulty sectors faults).spec Purpose) (op.prog sectors).run ⟨d, 0⟩ log o s' →
      Disturbed sectors ok s'.disk

/-- The lookup of a `create` sees every record up to the one of a taken name. -/
def LookupSees (d : Disk) (op : Op) (faults : Nat → Prop) : Prop :=
  ∀ T, Shows d T → op.LookupWorks T faults

/-- No two live records share parent and name. -/
def NamesUnique (d : Disk) : Prop :=
  ∀ i ∈ inodeNumbers, ∀ j ∈ inodeNumbers, ∀ e e', record d i = .ok e → record d j = .ok e' →
    e.kind ≠ 0 → e'.kind ≠ 0 → e.parent = e'.parent → e.nameText = e'.nameText → i = j

theorem TidyDisk.namesUnique {sectors : Nat} {d : Disk} (h : TidyDisk sectors d) :
    NamesUnique d := by
  obtain ⟨T, hT, htidy⟩ := h
  intro i hi j hj e e' he he' hlive hlive' hp hn
  rw [hT i (inTable_of_mem hi)] at he
  rw [hT j (inTable_of_mem hj)] at he'
  obtain rfl := Except.ok.inj he
  obtain rfl := Except.ok.inj he'
  exact htidy.unique i hi j hj hlive hlive' hp hn

theorem blankTable_tidy (sectors : Nat) : Tidy sectors blankTable := by
  refine ⟨by decide, fun i hi hlive => absurd (blankTable_unused i hi) hlive,
    fun i hi _ _ hlive => absurd (blankTable_unused i hi) hlive, fun i hi hkind => ?_⟩
  rw [blankTable_unused i hi] at hkind
  exact absurd hkind (by decide)

/-- **Names stay unique under faults**: after every run of operations in which any
call may fail and any operation may be cut off, as long as no failed read hides a
taken name from a `create`. -/
theorem disturbed_namesUnique {sectors : Nat} {d : Disk} (h : Disturbed sectors LookupSees d) :
    NamesUnique d := by
  have hinv : (DATA_START ≤ sectors ∧ sectors < wordSize) ∧ TidyDisk sectors d := by
    induction h with
    | fresh hword hmount =>
        obtain ⟨hsize, rfl⟩ := mount_formats hmount
        exact ⟨⟨by omega, hword⟩, blankTable, (formatted_consistent hsize hword _).shows,
          blankTable_tidy sectors⟩
    | step _ htyped hsees hexec ih =>
        obtain ⟨⟨hlow, hword⟩, T, hT, htidy⟩ := ih
        exact ⟨⟨hlow, hword⟩, exec_tidy hlow hword hT htidy htyped (hsees T hT) hexec⟩
  exact hinv.2.namesUnique

/-- The first file is made without a fault. -/
theorem disturbed_oneFile {ok : Disk → Op → (Nat → Prop) → Prop}
    (hok : ok (formatted 32 fun _ => zeroSector) (.createFile 1 "f") fun _ => False) :
    Disturbed 32 ok oneFile := by
  have hfresh : Disturbed 32 ok _ := .fresh (lt_wordSize (by decide)) mount_zeros
  obtain ⟨c, hcan⟩ := canEnd_evaluate (faulty 32 fun _ => False) (createFile 1 "f")
    (formatted 32 fun _ => zeroSector) 0
  have heval := createFile_zeros.1
  generalize oneFile = d at heval ⊢
  rw [show evaluate (faulty 32 fun _ => False).size (faulty 32 fun _ => False).outOfRange
    (createFile 1 "f") _ = _ from heval] at hcan
  obtain ⟨log, hexec⟩ := hcan
  exact @Disturbed.step _ _ _ (.createFile 1 "f") _ _ _ _ hfresh trivial hok hexec

/-- The read of `f`, call 1, fails while `g` is created. The lookup ends there, but
it could not have found `g`, and the two names differ. -/
theorem disturbed_namesUnique_twoFiles : ∃ d, LookupSees oneFile (.createFile 1 "g") (fun j => j = 1) ∧
    CanEnd (faulty 32 fun j => j = 1) (findChild 1 "g") ⟨oneFile, 1⟩ (.error .io) ⟨oneFile, 2⟩ ∧
    (∃ c, CanEnd (faulty 32 fun j => j = 1) (createFile 1 "g") ⟨oneFile, 0⟩ (.ok 3) ⟨d, c⟩) ∧
    Disturbed 32 LookupSees d ∧ NamesUnique d := by
  have hC := createFile_zeros.2
  have hnone := not_isChild_oneFile (nameText_newEntry 1 1 validName_f) (show "f" ≠ "g" by decide)
  have hsees : LookupSees oneFile (.createFile 1 "g") fun j => j = 1 := by
    intro T hT i hchild
    have hin := inTable_of_mem hchild.number
    have hsame := Except.ok.inj ((hT i hin).symm.trans (hC.shows i hin))
    exact absurd ⟨hchild.number, hsame ▸ hchild.live, hsame ▸ hchild.parent, hsame ▸ hchild.name⟩
      (hnone i)
  have hone := @disturbed_oneFile LookupSees fun _ _ _ _ _ _ _ _ => id
  obtain ⟨c, hcan⟩ := @create_blind 32 1 (fun j => j = 1) _ _ "g" 1 3 1 hC validName_g one_inTable
    rfl (fun i _ => hnone i) (isLeast_oneFile (by decide)) (by decide) (by decide) rfl
  obtain ⟨log, hexec⟩ := hcan
  have htwo := @Disturbed.step _ _ _ (.createFile 1 "g") _ _ _ _ hone trivial hsees hexec
  exact ⟨_, hsees, findChild_fault hC (fun i _ => hnone i) (by decide) (by decide) rfl,
    ⟨c, log, hexec⟩, htwo, disturbed_namesUnique htwo⟩

/-- Creating `f` again while the read of its record, call 1, fails: the names are no
longer unique. -/
theorem disturbed_duplicate : ∃ d, Disturbed 32 (fun _ _ _ => True) d ∧ ¬ NamesUnique d := by
  have hC := createFile_zeros.2
  have hone := @disturbed_oneFile (fun _ _ _ => True) trivial
  obtain ⟨c, log, hexec⟩ := @create_duplicate 32 1 (fun j => j = 1) _ _ "f" 2 1 3 1 hC
    (isChild_oneFile validName_f) (isLeast_oneFile (by decide)) (by decide) (by decide) rfl
  refine ⟨_, @Disturbed.step _ _ _ (.createFile 1 "f") _ _ _ _ hone trivial trivial hexec, fun hunique => ?_⟩
  have hstorable : (newEntry 1 "f" 1).Storable := newEntry_storable 1 validName_f (by decide)
  have hold : record (putRecord oneFile 3 (newEntry 1 "f" 1)) 2 = .ok (newEntry 1 "f" 1) := by
    rw [record_putRecord_of_ne _ _ (inTable_of_mem three_mem) (inTable_of_mem two_mem) (by decide),
      hC.shows 2 (inTable_of_mem two_mem)]
    rfl
  have hnew := record_putRecord_self oneFile 3 hstorable
  exact absurd (hunique 2 two_mem 3 three_mem _ _ hold hnew (by decide) (by decide) rfl rfl)
    (by decide)

end GenericKernel.Fs
