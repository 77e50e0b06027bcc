import GenericKernel.Lib.Routine
import GenericKernel.Mm.PhysicalExact
import GenericKernel.Paging.BootTables

/-!
# Mapping user pages (`map_user_page` in `kernel/src/arch/memory.rs`)

A user page gets a zeroed frame of the physical memory manager, its initial bytes
through the direct map, and an entry in the page tables of its address space. The
tables belong to the `x86_64` crate: a `Mapper` is what the kernel calls, and
`Mapper.Exact` what the crate documents. The frames behind the tables come from the
same manager as the data, so that neither can be written through the other.

* **model** — `mapUserPage` on `Memory`, and the wrapper of `kernel/src/mm/mod.rs`
  on `Machine`;
* **result** — `mapUserPage_runs`: no panic, and on success exactly one page more,
  with one frame that was free before.
-/

namespace GenericKernel.Mm

open GenericKernel.Lib
open GenericKernel.Paging.BootTables (Canonical)

/-! ## The mapper -/

def USER_ADDRESS_LIMIT : Nat := 2 ^ 39

theorem alignDown_pageSize {value : Nat} (h : value < wordSize) :
    alignDown value pageSize = value / pageSize * pageSize := by
  have hsize : pageSize = 2 ^ 12 := rfl
  rw [hsize]
  exact alignDown_eq (by decide) h

theorem alignUp_pageSize {value : Nat} (h : value + (pageSize - 1) < wordSize) :
    alignUp value pageSize = some ((value + (pageSize - 1)) / pageSize * pageSize) := by
  have hsize : pageSize = 2 ^ 12 := rfl
  rw [hsize] at h ⊢
  exact alignUp_eq (by decide) h

/-- The `PageTableFlags` that the kernel sets on user pages. -/
structure PageFlags where
  present : Bool
  userAccessible : Bool
  writable : Bool
  noExecute : Bool
  deriving DecidableEq, Repr

/-- The page tables of an address space. Pages are numbers: the page of `a` is
`a / pageSize`. -/
structure Mapper (N : Nat) where
  Tables : Type
  /-- the frames the tables live in -/
  frames : Tables → Set Nat
  /-- the frame and the flags of a page -/
  mapping : Tables → Nat → Option (Nat × PageFlags)
  translateAddr : Tables → Nat → Option Nat
  /-- whether the page was mapped, and what is left of the tables and the allocator -/
  mapTo : Tables → PhysicalMemory N → Nat → Nat → PageFlags → Bool × Tables × PhysicalMemory N

variable {N : Nat}

/-- Frames taken from the manager by calls of `allocate_frame`. -/
inductive Takes : PhysicalMemory N → List Nat → PhysicalMemory N → Prop
  | done {m : PhysicalMemory N} : Takes m [] m
  | frame {m m₁ m₂ : PhysicalMemory N} {f : Nat} {fs : List Nat}
      (h : m.allocateFrame = (.ok (some f), m₁)) (rest : Takes m₁ fs m₂) : Takes m (f :: fs) m₂
  | refused {m m₁ m₂ : PhysicalMemory N} {r : Except PhysicalMemoryError (Option Nat)}
      {fs : List Nat} (h : m.allocateFrame = (r, m₁)) (hr : ∀ f, r ≠ .ok (some f))
      (rest : Takes m₁ fs m₂) : Takes m fs m₂

/-- What the crate documents: `translate_addr` reports exactly the mapped pages, a
successful `map_to` maps exactly the requested page to the given frame, and the
tables grow only by frames of the given allocator. -/
structure Mapper.Exact (mapper : Mapper N) : Prop where
  reports : ∀ t a, (mapper.translateAddr t a).isSome ↔ (mapper.mapping t (a / pageSize)).isSome
  maps : ∀ {t t' m m' page frame flags},
    mapper.mapTo t m page frame flags = (true, t', m') →
      mapper.mapping t' = Function.update (mapper.mapping t) page (some (frame, flags))
  takes : ∀ {t t' m m' page frame flags done},
    mapper.mapTo t m page frame flags = (done, t', m') →
      ∃ taken, Takes m taken m' ∧ ∀ f ∈ mapper.frames t', f ∈ mapper.frames t ∨ f ∈ taken

/-! ## The model -/

/-- Physical memory and the tables of one address space. -/
structure Memory (mapper : Mapper N) where
  pmm : PhysicalMemory N
  bytes : Nat → UInt8
  tables : mapper.Tables

/-- `bytes` with `data` written from `start` on. -/
def overwriteBytes (bytes : Nat → UInt8) (start : Nat) (data : List UInt8) : Nat → UInt8 := fun a =>
  if start ≤ a then data[a - start]?.getD (bytes a) else bytes a

section Model

variable {mapper : Mapper N}

open Routine

/-- `VirtAddr::new(address)` -/
def virtAddr (address : Nat) : Fallible String Unit :=
  if Canonical address then .ok () else .panic

/-- `PhysAddr::new(address)` -/
def physAddr (address : Nat) : Fallible String Unit := if address < 2 ^ 52 then .ok () else .panic

/-- The checks of `offset_page_table_for_root`: the mapper it returns stands for
the tables of the state. -/
def offsetPageTableForRoot (root offset : Nat) : Fallible String Unit := do
  physAddr root
  .reject (root % pageSize ≠ 0) "address-space root is not page aligned"
  let address ← .add offset root
  virtAddr address

/-- `PmmFrameAllocator::allocate_physical` -/
def allocatePhysical : Routine (Memory mapper) String (Option Nat) where
  run s :=
    match s.pmm.allocateFrame with
    | (.ok (some frame), pmm) => (.ok (some frame), { s with pmm := pmm })
    | (_, pmm) => (.ok none, { s with pmm := pmm })

def zeroPhysicalFrame (offset physical : Nat) : Routine (Memory mapper) String Unit := do
  -- `expect("physical direct-map address overflow")`
  let address ← lift (.add offset physical)
  lift (virtAddr address)
  let s ← get
  set { s with bytes := overwriteBytes s.bytes physical (List.replicate pageSize 0) }

/-- The flags of a user page. -/
def userFlags (writable executable : Bool) : PageFlags where
  present := true
  userAccessible := true
  writable := writable
  noExecute := !executable

/-- `mapper.map_to(page, frame, flags, &mut allocator)` -/
def mapTo (page frame : Nat) (flags : PageFlags) : Routine (Memory mapper) String Unit where
  run s :=
    match mapper.mapTo s.tables s.pmm page frame flags with
    | (true, tables, pmm) => (.ok (), { s with tables := tables, pmm := pmm })
    | (false, tables, pmm) =>
        (.error "failed to map user page", { s with tables := tables, pmm := pmm })

/-- The copy of the initial bytes through the direct map. -/
def copyInitial (offset physical : Nat) (initial : List UInt8) :
    Routine (Memory mapper) String Unit :=
  if initial = [] then pure ()
  else do
    let direct ← lift (.ofOption "user direct-map address overflow" (checkedAdd offset physical))
    lift (virtAddr direct)
    let s ← get
    set { s with bytes := overwriteBytes s.bytes physical initial }

def mapUserPage (offset root virtualAddress : Nat) (writable executable : Bool)
    (initial : List UInt8) : Routine (Memory mapper) String Nat := do
  reject (virtualAddress % pageSize ≠ 0) "user virtual address must be page aligned"
  reject (pageSize < initial.length) "initial user page data exceeds one page"
  reject (USER_ADDRESS_LIMIT ≤ virtualAddress) "user virtual address exceeds Generic userspace limit"
  lift (virtAddr offset)
  lift (offsetPageTableForRoot root offset)
  lift (virtAddr virtualAddress)
  reject (virtualAddress % pageSize ≠ 0) "unaligned user page"
  let s ← get
  reject ((mapper.translateAddr s.tables virtualAddress).isSome) "user virtual page is already mapped"
  let physical ← lift (.ofOption "out of physical memory for user page" (← allocatePhysical))
  zeroPhysicalFrame offset physical
  copyInitial offset physical initial
  lift (physAddr physical)
  mapTo (virtualAddress / pageSize) (physical / pageSize * pageSize) (userFlags writable executable)
  pure physical

end Model

/-! ## One page -/

/-- The boot contract: the direct map reaches the tables and every managed frame. -/
structure DirectMap (offset root : Nat) (ms : List Region) : Prop where
  offset_canonical : Canonical offset
  root_lt : root < 2 ^ 52
  root_mapped : offset + root < wordSize ∧ Canonical (offset + root)
  managed : ∀ f ∈ cover ms, pageSize ∣ f →
    f < 2 ^ 52 ∧ offset + f < wordSize ∧ Canonical (offset + f)

section Step

variable {mapper : Mapper N} {ms : List Region} {offset root : Nat} {s s' : Memory mapper}

open Routine

/-- The state between calls: the manager stands, and no table is free memory. -/
structure Memory.Owned (ms : List Region) (s : Memory mapper) : Prop where
  stands : s.pmm.Stands ms
  tables : ∀ f ∈ mapper.frames s.tables, f ∉ cover s.pmm.freeRegions

/-- The bytes of a frame. -/
def framePoints (frame : Nat) : Set Nat := (PhysicalMemory.pageBlock frame 1).points

theorem mem_framePoints {frame a : Nat} :
    a ∈ framePoints frame ↔ frame ≤ a ∧ a < frame + pageSize := by
  unfold framePoints PhysicalMemory.pageBlock
  rw [Nat.one_mul]
  exact Iff.rfl

theorem self_mem_framePoints (frame : Nat) : frame ∈ framePoints frame :=
  mem_framePoints.mpr ⟨le_rfl, Nat.lt_add_of_pos_right (by decide)⟩

instance (frame a : Nat) : Decidable (a ∈ framePoints frame) :=
  decidable_of_iff _ mem_framePoints.symm

/-- What mapping one page does. -/
structure Adds (ms : List Region) (page : Nat) (flags : PageFlags) (initial : List UInt8)
    (s : Memory mapper) (frame : Nat) (s' : Memory mapper) : Prop where
  owned : s'.Owned ms
  aligned : pageSize ∣ frame
  unmapped : mapper.mapping s.tables page = none
  mapped : mapper.mapping s'.tables =
    Function.update (mapper.mapping s.tables) page (some (frame, flags))
  fresh : framePoints frame ⊆ cover s.pmm.freeRegions
  shrinks : cover s'.pmm.freeRegions ⊆ cover s.pmm.freeRegions \ framePoints frame
  frames : ∀ f ∈ mapper.frames s'.tables,
    f ∈ mapper.frames s.tables ∨ f ∈ cover s.pmm.freeRegions \ framePoints frame
  separate : frame ∉ mapper.frames s'.tables
  bytes : ∀ a, s'.bytes a =
    if a ∈ framePoints frame then initial[a - frame]?.getD 0 else s.bytes a

/-- Taken frames were free and no longer are. -/
theorem Takes.spec {m m' : PhysicalMemory N} {taken : List Nat} (h : Takes m taken m')
    (hm : m.Stands ms) : m'.Stands ms ∧ cover m'.freeRegions ⊆ cover m.freeRegions ∧
      ∀ f ∈ taken, f ∈ cover m.freeRegions ∧ f ∉ cover m'.freeRegions := by
  induction h with
  | done => exact ⟨hm, subset_rfl, by simp⟩
  | @frame m m₁ m₂ f fs halloc _ ih =>
      rcases hm.allocateFrame with ⟨r, hr, hno⟩ | ⟨f', m₁', hok, hm₁, _, hsub, hcover⟩
      · rw [halloc] at hr
        exact absurd (congrArg Prod.fst hr).symm (hno f)
      · rw [halloc] at hok
        obtain ⟨rfl, rfl⟩ : f = f' ∧ m₁ = m₁' := by simpa using hok
        obtain ⟨hm₂, hshrink, htaken⟩ := ih hm₁
        have hmem : f ∈ (PhysicalMemory.pageBlock f 1).points := self_mem_framePoints f
        rw [hcover] at hshrink htaken
        refine ⟨hm₂, hshrink.trans Set.sdiff_subset, ?_⟩
        intro g hg
        rcases List.mem_cons.mp hg with rfl | hg
        · exact ⟨hsub hmem, fun hin => (hshrink hin).2 hmem⟩
        · exact ⟨(htaken g hg).1.1, (htaken g hg).2⟩
  | @refused m m₁ m₂ r fs halloc hno _ ih =>
      rcases hm.allocateFrame with ⟨r', hr, _⟩ | ⟨f, m₁', hok, _⟩
      · rw [halloc] at hr
        obtain ⟨_, rfl⟩ : r = r' ∧ m₁ = m := by simpa using hr
        exact ih hm
      · rw [halloc] at hok
        exact absurd (congrArg Prod.fst hok) (hno f)

theorem virtAddr_ok {a : Nat} (h : Canonical a) : virtAddr a = .ok () := if_pos h

theorem physAddr_ok {a : Nat} (h : a < 2 ^ 52) : physAddr a = .ok () := if_pos h

theorem offsetPageTableForRoot_decides (h : DirectMap offset root ms) :
    (offsetPageTableForRoot root offset).Decides (¬ root % pageSize ≠ 0) () := by
  unfold offsetPageTableForRoot
  rw [physAddr_ok h.root_lt, Fallible.ok_bind]
  apply Fallible.Decides.reject_last
  intro _
  rw [Fallible.add_of_lt h.root_mapped.1, Fallible.ok_bind, virtAddr_ok h.root_mapped.2]

/-- Zeroing and filling a frame. -/
theorem overwriteBytes_frame (bytes : Nat → UInt8) (frame : Nat) {initial : List UInt8}
    (h : initial.length ≤ pageSize) (a : Nat) :
    overwriteBytes (overwriteBytes bytes frame (List.replicate pageSize 0)) frame initial a =
      if a ∈ framePoints frame then initial[a - frame]?.getD 0 else bytes a := by
  unfold overwriteBytes
  simp only [mem_framePoints]
  by_cases hlo : frame ≤ a
  · by_cases hhi : a - frame < pageSize
    · rw [if_pos hlo, if_pos hlo, if_pos ⟨hlo, by omega⟩, List.getElem?_replicate_of_lt hhi]
      rfl
    · rw [if_pos hlo, if_pos hlo, if_neg (by omega), List.getElem?_eq_none (by omega),
        List.getElem?_eq_none (by rw [List.length_replicate]; omega)]
      rfl
  · rw [if_neg hlo, if_neg hlo, if_neg (by omega)]

/-- A managed page is reached by the direct map. -/
theorem DirectMap.frame (h : DirectMap offset root ms) (hs : s.pmm.Stands ms) {f : Nat}
    (haligned : pageSize ∣ f) (hf : framePoints f ⊆ cover s.pmm.freeRegions) :
    f < 2 ^ 52 ∧ offset + f < wordSize ∧ Canonical (offset + f) := by
  obtain ⟨fs, hm, hsound⟩ := hs
  have hfree : s.pmm.freeRegions = fs := hm.free.take
  rw [hfree] at hf
  exact h.managed f (hsound.sub (hf (self_mem_framePoints f))) haligned

theorem zeroPhysicalFrame_runs {f : Nat} (hf : offset + f < wordSize ∧ Canonical (offset + f))
    {Q : Unit → Memory mapper → Prop}
    (hQ : Q () { s with bytes := overwriteBytes s.bytes f (List.replicate pageSize 0) }) :
    Runs (zeroPhysicalFrame offset f) s Q := by
  apply Routine.Runs.bind (Routine.Runs.lift_ok (Fallible.add_of_lt hf.1) _)
  apply Routine.Runs.bind (Routine.Runs.lift_ok (virtAddr_ok hf.2) _)
  apply Routine.Runs.bind (Routine.Runs.get _)
  exact Routine.Runs.set hQ

theorem copyInitial_runs {f : Nat} (hf : offset + f < wordSize ∧ Canonical (offset + f))
    {initial : List UInt8} {Q : Unit → Memory mapper → Prop}
    (hQ : Q () { s with bytes := overwriteBytes s.bytes f initial }) :
    Runs (copyInitial offset f initial) s Q := by
  unfold copyInitial
  split
  · rename_i hnil
    have hsame : overwriteBytes s.bytes f [] = s.bytes := by
      funext a
      simp [overwriteBytes]
    rw [hnil, hsame] at hQ
    exact Routine.Runs.pure hQ
  · apply Routine.Runs.bind (Routine.Runs.lift Fallible.Decides.checkedAdd _)
    intro _
    apply Routine.Runs.bind (Routine.Runs.lift_ok (virtAddr_ok hf.2) _)
    apply Routine.Runs.bind (Routine.Runs.get _)
    exact Routine.Runs.set hQ

/-- `allocate_physical`, by what the manager has. -/
theorem allocatePhysical_runs (hs : s.pmm.Stands ms) {Q : Option Nat → Memory mapper → Prop}
    (hnone : Q none s)
    (hsome : ∀ f m', m'.Stands ms → pageSize ∣ f → framePoints f ⊆ cover s.pmm.freeRegions →
      cover m'.freeRegions = cover s.pmm.freeRegions \ framePoints f →
      Q (some f) { s with pmm := m' }) :
    Runs allocatePhysical s Q := by
  rcases hs.allocateFrame with ⟨r, hr, hno⟩ | ⟨f, m', hok, hm', haligned, hsub, hcover⟩
  · apply Routine.Runs.of_ok _ hnone
    cases r with
    | error e => simp [allocatePhysical, hr]
    | ok frame =>
        cases frame with
        | none => simp [allocatePhysical, hr]
        | some f => exact absurd rfl (hno f)
  · apply Routine.Runs.of_ok _ (hsome f m' hm' haligned hsub hcover)
    simp [allocatePhysical, hok]

/-- `map_to`: a failure ends the call. -/
theorem mapTo_runs {page frame : Nat} {flags : PageFlags} {Q : Unit → Memory mapper → Prop}
    (hQ : ∀ t' m', mapper.mapTo s.tables s.pmm page frame flags = (true, t', m') →
      Q () { s with tables := t', pmm := m' }) : Runs (mapTo page frame flags) s Q := by
  rcases hto : mapper.mapTo s.tables s.pmm page frame flags with ⟨done, t', m'⟩
  cases done with
  | false =>
      have hrun : (mapTo page frame flags).run s =
          (.error "failed to map user page", { s with tables := t', pmm := m' }) := by
        simp [mapTo, hto]
      exact Routine.Runs.of_error hrun
  | true =>
      apply Routine.Runs.of_ok _ (hQ t' m' hto)
      simp [mapTo, hto]

/-- **One page**: from a state whose tables are not free memory, `map_user_page`
does not panic, and what it returns is the frame it added. -/
theorem mapUserPage_runs (hmapper : mapper.Exact) (hmap : DirectMap offset root ms)
    (hs : s.Owned ms) (page : Nat) (writable executable : Bool) (initial : List UInt8) :
    Runs (mapUserPage offset root (page * pageSize) writable executable initial) s fun frame s' =>
      page * pageSize < USER_ADDRESS_LIMIT ∧
        Adds ms page (userFlags writable executable) initial s frame s' := by
  have hpos : 0 < pageSize := by decide
  have hlimit : USER_ADDRESS_LIMIT = 2 ^ 39 := rfl
  unfold mapUserPage
  apply Routine.Runs.bind (Routine.Runs.reject _)
  intro _
  apply Routine.Runs.bind (Routine.Runs.reject _)
  intro hlength
  apply Routine.Runs.bind (Routine.Runs.reject _)
  intro hbelow
  apply Routine.Runs.bind (Routine.Runs.lift_ok (virtAddr_ok hmap.offset_canonical) _)
  apply Routine.Runs.bind (Routine.Runs.lift (offsetPageTableForRoot_decides hmap) _)
  intro _
  apply Routine.Runs.bind (Routine.Runs.lift_ok (virtAddr_ok (.inl (by omega))) _)
  apply Routine.Runs.bind (Routine.Runs.reject _)
  intro _
  apply Routine.Runs.bind (Routine.Runs.get _)
  apply Routine.Runs.bind (Routine.Runs.reject _)
  intro hnone
  have hunmapped : mapper.mapping s.tables page = none := by
    have hreports := hmapper.reports s.tables (page * pageSize)
    rw [Nat.mul_div_cancel _ hpos] at hreports
    rwa [hreports, Option.not_isSome_iff_eq_none] at hnone
  apply Routine.Runs.bind (allocatePhysical_runs hs.stands _ _)
  · exact Routine.Runs.bind (Routine.Runs.of_error rfl)
  intro f m₁ hm₁ haligned hfresh hfree
  have hframe := hmap.frame hs.stands haligned hfresh
  apply Routine.Runs.bind (Routine.Runs.lift_ok rfl _)
  apply Routine.Runs.bind (zeroPhysicalFrame_runs hframe.2 _)
  apply Routine.Runs.bind (copyInitial_runs hframe.2 _)
  apply Routine.Runs.bind (Routine.Runs.lift_ok (physAddr_ok hframe.1) _)
  rw [Nat.mul_div_cancel _ hpos, Nat.div_mul_cancel haligned]
  apply Routine.Runs.bind (mapTo_runs _)
  intro t' m₂ hto
  -- the tables grow by frames that were free after `f` had been taken
  obtain ⟨taken, htakes, htables⟩ := hmapper.takes hto
  obtain ⟨hm₂, hshrinks, htaken⟩ := htakes.spec hm₁
  apply Routine.Runs.pure
  refine ⟨Nat.not_le.mp hbelow, ⟨hm₂, ?_⟩, haligned, hunmapped, hmapper.maps hto, hfresh, ?_, ?_, ?_, ?_⟩
  · intro g hg hin
    rcases htables g hg with hold | hnew
    · exact hs.tables g hold (hfree.subset (hshrinks hin)).1
    · exact (htaken g hnew).2 hin
  · rwa [← hfree]
  · intro g hg
    rw [← hfree]
    exact (htables g hg).imp_right fun hnew => (htaken g hnew).1
  · intro hin
    rcases htables f hin with hold | hnew
    · exact hs.tables f hold (hfresh (self_mem_framePoints f))
    · exact (hfree.subset (htaken f hnew).1).2 (self_mem_framePoints f)
  · exact overwriteBytes_frame s.bytes f (Nat.not_lt.mp hlength)

end Step

/-- The kernel's globals, with physical memory and the tables of one address space. -/
structure Machine (mapper : Mapper N) where
  physicalMemoryOffset : Option Nat
  physicalMemory : Option (PhysicalMemory N)
  bytes : Nat → UInt8
  tables : mapper.Tables

namespace Machine

variable {mapper : Mapper N} {ms : List Region} {root : Nat}

/-- The physical side of a machine. -/
def memory (s : Machine mapper) (pmm : PhysicalMemory N) : Memory mapper where
  pmm := pmm
  bytes := s.bytes
  tables := s.tables

/-- The machine with its physical side replaced. -/
def withMemory (s : Machine mapper) (memory : Memory mapper) : Machine mapper where
  physicalMemoryOffset := s.physicalMemoryOffset
  physicalMemory := some memory.pmm
  bytes := memory.bytes
  tables := memory.tables

/-- `map_user_page` of `kernel/src/mm/mod.rs` -/
def mapUserPage (root virtualAddress : Nat) (writable executable : Bool) (initial : List UInt8) :
    Routine (Machine mapper) String Nat where
  run s :=
    match s.physicalMemoryOffset, s.physicalMemory with
    | none, _ => (.error "physical memory is not initialized", s)
    | some _, none => (.error "physical memory manager is not initialized", s)
    | some offset, some pmm =>
        let r := (Mm.mapUserPage offset root virtualAddress writable executable initial).run
          (s.memory pmm)
        (r.1, s.withMemory r.2)

/-- An initialised machine keeps the boot contract; one that is not initialised
maps nothing. -/
def Ready (ms : List Region) (root : Nat) (s : Machine mapper) : Prop :=
  ∀ offset pmm, s.physicalMemoryOffset = some offset → s.physicalMemory = some pmm →
    DirectMap offset root ms ∧ (s.memory pmm).Owned ms

/-- What mapping one page does to the machine. -/
structure Adds (ms : List Region) (page : Nat) (flags : PageFlags) (initial : List UInt8)
    (s : Machine mapper) (frame : Nat) (s' : Machine mapper) (pmm pmm' : PhysicalMemory N) :
    Prop where
  before : s.physicalMemory = some pmm
  after : s'.physicalMemory = some pmm'
  offset : s'.physicalMemoryOffset = s.physicalMemoryOffset
  memory : Mm.Adds ms page flags initial (s.memory pmm) frame (s'.memory pmm')

theorem mapUserPage_runs (hmapper : mapper.Exact) {s : Machine mapper} (hs : s.Ready ms root)
    (page : Nat) (writable executable : Bool) (initial : List UInt8) :
    (mapUserPage root (page * pageSize) writable executable initial).Runs s
      fun frame s' => page * pageSize < USER_ADDRESS_LIMIT ∧ s'.Ready ms root ∧
        ∃ pmm pmm', Adds ms page (userFlags writable executable) initial s frame s' pmm pmm' := by
  rcases hoffset : s.physicalMemoryOffset with _ | offset
  · have hrun : (mapUserPage root (page * pageSize) writable executable initial).run s =
        (.error "physical memory is not initialized", s) := by simp [mapUserPage, hoffset]
    exact Routine.Runs.of_error hrun
  rcases hpmm : s.physicalMemory with _ | pmm
  · have hrun : (mapUserPage root (page * pageSize) writable executable initial).run s =
        (.error "physical memory manager is not initialized", s) := by
      simp [mapUserPage, hoffset, hpmm]
    exact Routine.Runs.of_error hrun
  obtain ⟨hmap, howned⟩ := hs offset pmm hoffset hpmm
  obtain ⟨hpanic, hok⟩ := Mm.mapUserPage_runs hmapper hmap howned page writable executable initial
  have hrun : (mapUserPage root (page * pageSize) writable executable initial).run s =
      let r := (Mm.mapUserPage offset root (page * pageSize) writable executable initial).run
        (s.memory pmm)
      (r.1, s.withMemory r.2) := by simp only [mapUserPage, hoffset, hpmm]
  constructor
  · rw [hrun]
    exact hpanic
  · rw [hrun]
    intro frame hframe
    obtain ⟨hbelow, hadds⟩ := hok frame hframe
    refine ⟨hbelow, ?_, pmm, _, hpmm, rfl, rfl, hadds⟩
    intro offset' pmm' ho hp
    obtain rfl : offset = offset' := Option.some.inj (hoffset.symm.trans ho)
    obtain rfl := Option.some.inj hp
    exact ⟨hmap, hadds.owned⟩

end Machine

end GenericKernel.Mm
