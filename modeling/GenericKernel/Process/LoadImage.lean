import GenericKernel.Mm.UserPages
import GenericKernel.Process.Elf

/-!
# Loading an ELF image (`load_image` in `kernel/src/process.rs`)

Every segment is mapped page by page: a zeroed buffer, the part of the file that
falls into the page copied over it, one call of `map_user_page`.

* **model** — `initialPage`, `loadPages`, `loadSegment`, `loadImage`;
* **run** — `Staged` says which pages are loaded so far; one page extends the
  last part (`Staged.grow`), a loop over pages and segments follows;
* **result** — `loadImage_loads`.
-/

namespace GenericKernel.Process

open GenericKernel.Lib GenericKernel.Mm

/-! ## The model -/

def USER_LIMIT : Nat := 2 ^ 39

/-- `initial[start..stop].copy_from_slice(source)` -/
def copyInto (initial : List UInt8) (start stop : Nat) (source : Slice UInt8) :
    Fallible String (List UInt8) :=
  if start ≤ stop ∧ stop ≤ initial.length ∧ source.length = stop - start then
    .ok (overwrite initial start source.items)
  else .panic

/-- The buffer of one page: zeros, and the file bytes that fall into it. -/
def initialPage (segment : LoadSegment) (fileEnd pageAddress : Nat) :
    Fallible String (List UInt8) := do
  let initial := List.replicate pageSize 0
  let copyStart := max pageAddress segment.virtualAddress
  let copyEnd := min (← .add pageAddress pageSize) fileEnd
  if copyStart < copyEnd then
    let sourceStart ← .sub copyStart segment.virtualAddress
    let sourceEnd ← .sub copyEnd segment.virtualAddress
    let destination ← .sub copyStart pageAddress
    let stop ← .add destination (← .sub sourceEnd sourceStart)
    let source ← segment.fileData.range sourceStart sourceEnd
    copyInto initial destination stop source
  else .ok initial

section Model

variable {N : Nat} {mapper : Mapper N}

open Routine

/-- `while page_address < page_end` -/
def loadPages (root : Nat) (segment : LoadSegment) (pageEnd fileEnd pageAddress : Nat) :
    Routine (Machine mapper) String Unit :=
  if pageAddress < pageEnd then do
    let initial ← lift (initialPage segment fileEnd pageAddress)
    let _ ← Machine.mapUserPage root pageAddress segment.writable segment.executable initial
    if pageAddress + pageSize < wordSize then
      loadPages root segment pageEnd fileEnd (pageAddress + pageSize)
    else lift .panic
  else pure ()
termination_by pageEnd - pageAddress
decreasing_by
  have : pageSize = 4096 := rfl
  omega

/-- The body of the loop over segments. -/
def loadSegment (root : Nat) (segment : LoadSegment) : Routine (Machine mapper) String Unit :=
  if segment.memorySize = 0 then pure ()
  else do
    reject (USER_LIMIT ≤ segment.virtualAddress) "ELF segment starts outside userspace"
    let segmentEnd ← lift (.ofOption "ELF segment address overflow"
      (checkedAdd segment.virtualAddress segment.memorySize))
    reject (USER_LIMIT < segmentEnd) "ELF segment ends outside userspace"
    let pageStart := alignDown segment.virtualAddress pageSize
    let pageEnd ← lift (.ofOption "ELF page range overflow" (alignUp segmentEnd pageSize))
    let fileEnd ← lift (.ofOption "ELF file segment overflow"
      (checkedAdd segment.virtualAddress segment.fileData.length))
    loadPages root segment pageEnd fileEnd pageStart

/-- The loop over the segments. -/
def loadSegments (root : Nat) : List LoadSegment → Routine (Machine mapper) String Unit
  | [] => pure ()
  | segment :: rest => do
      loadSegment root segment
      loadSegments root rest

def loadImage (image : ElfImage) (root : Nat) : Routine (Machine mapper) String Unit := do
  reject (USER_LIMIT ≤ image.entry) "ELF entry is outside userspace"
  loadSegments root image.segments

end Model

/-! ## The buffer of one page -/

/-- The byte of a segment at an address: from the file, or zero. -/
def LoadSegment.byteAt (segment : LoadSegment) (a : Nat) : UInt8 :=
  if segment.virtualAddress ≤ a then segment.fileData.items[a - segment.virtualAddress]?.getD 0
  else 0

theorem LoadSegment.byteAt_outside {segment : LoadSegment} {a : Nat}
    (h : a < segment.virtualAddress ∨ segment.virtualAddress + segment.fileData.length ≤ a) :
    segment.byteAt a = 0 := by
  have hlen : segment.fileData.length = segment.fileData.items.length := rfl
  unfold LoadSegment.byteAt
  split
  · rw [List.getElem?_eq_none (by omega)]
    rfl
  · rfl

/-- The buffer has the bytes of the segment at its addresses. -/
structure PageOf (segment : LoadSegment) (pageAddress : Nat) (buffer : List UInt8) : Prop where
  length : buffer.length = pageSize
  bytes : ∀ i < pageSize, buffer[i]?.getD 0 = segment.byteAt (pageAddress + i)

theorem copyInto_ok {initial : List UInt8} {start stop : Nat} {source : Slice UInt8}
    (h : start + source.length = stop) (hstop : stop ≤ initial.length) :
    copyInto initial start stop source = .ok (overwrite initial start source.items) :=
  if_pos ⟨by omega, hstop, by omega⟩

/-- The copy window never leaves the file or the page. -/
theorem initialPage_ok {segment : LoadSegment} {pageAddress : Nat}
    (h : pageAddress + pageSize < wordSize) :
    ∃ buffer, initialPage segment (segment.virtualAddress + segment.fileData.length) pageAddress =
        .ok buffer ∧ PageOf segment pageAddress buffer := by
  have hlen : segment.fileData.length = segment.fileData.items.length := rfl
  have hfits := segment.fileData.fits
  unfold initialPage
  rw [Fallible.add_of_lt h, Fallible.ok_bind]
  generalize hstart : max pageAddress segment.virtualAddress = copyStart
  generalize hend : min (pageAddress + pageSize)
    (segment.virtualAddress + segment.fileData.length) = copyEnd
  dsimp only
  by_cases hcopy : copyStart < copyEnd
  · generalize hsource : segment.fileData.between (copyStart - segment.virtualAddress)
      (copyEnd - segment.virtualAddress) = source
    have hcount : source.length = copyEnd - copyStart := by
      rw [← hsource, Slice.length_between (by omega)]
      omega
    have hitems : source.items.length = copyEnd - copyStart := hcount
    rw [if_pos hcopy, Fallible.sub_of_le (by omega), Fallible.ok_bind, Fallible.sub_of_le (by omega),
      Fallible.ok_bind, Fallible.sub_of_le (by omega), Fallible.ok_bind,
      Fallible.sub_of_le (by omega), Fallible.ok_bind, Fallible.add_of_lt (by omega),
      Fallible.ok_bind, Slice.range_of_le (by omega) (by omega), Fallible.ok_bind, hsource]
    refine ⟨_, copyInto_ok (by omega) (by rw [List.length_replicate]; omega), ?_, ?_⟩
    · rw [length_overwrite, List.length_replicate, hitems]
      omega
    · intro i hi
      rw [getElem?_overwrite _ (by rw [List.length_replicate]; omega), hitems, Option.getD_some]
      by_cases hin : copyStart - pageAddress ≤ i ∧ i < copyStart - pageAddress + (copyEnd - copyStart)
      · rw [if_pos hin, LoadSegment.byteAt, if_pos (by omega), ← hsource]
        simp only [Slice.between]
        rw [List.getElem?_take_of_lt (by omega), List.getElem?_drop]
        congr 2
        omega
      · rw [if_neg hin, List.getElem?_replicate_of_lt hi, LoadSegment.byteAt_outside (by omega)]
        rfl
  · rw [if_neg hcopy]
    refine ⟨_, rfl, by simp, ?_⟩
    intro i hi
    rw [List.getElem?_replicate_of_lt hi, LoadSegment.byteAt_outside (by omega)]
    rfl

/-! ## Pages loaded so far -/

section Run

variable {N : Nat} {mapper : Mapper N} {ms : List Region} {root page : Nat}
  {segment : LoadSegment} {s₀ s s' : Machine mapper}

open Routine

/-- A page of a segment is in place: its frame is neither free nor a table, and has
the bytes of the segment. -/
def Placed (s : Machine mapper) (segment : LoadSegment) (page : Nat) : Prop :=
  ∃ frame pmm, s.physicalMemory = some pmm ∧ pageSize ∣ frame ∧
    mapper.mapping s.tables page =
      some (frame, userFlags segment.writable segment.executable) ∧
    Disjoint (framePoints frame) (cover pmm.freeRegions) ∧ frame ∉ mapper.frames s.tables ∧
    ∀ i < pageSize, s.bytes (frame + i) = segment.byteAt (page * pageSize + i)

/-- The page that was just mapped is in place. -/
theorem placed_of_adds {frame : Nat} {pmm pmm' : PhysicalMemory N} {buffer : List UInt8}
    (hbuffer : PageOf segment (page * pageSize) buffer)
    (h : Machine.Adds ms page (userFlags segment.writable segment.executable) buffer s frame s'
      pmm pmm') : Placed s' segment page := by
  refine ⟨frame, pmm', h.after, h.memory.aligned, ?_, ?_, h.memory.separate, ?_⟩
  · show mapper.mapping (s'.memory pmm').tables page = _
    rw [h.memory.mapped, Function.update_self]
  · rw [Set.disjoint_left]
    intro a ha hfree
    exact (h.memory.shrinks hfree).2 ha
  · intro i hi
    have hbyte := h.memory.bytes (frame + i)
    rw [if_pos (mem_framePoints.mpr (by omega)), Nat.add_sub_cancel_left] at hbyte
    exact hbyte.trans (hbuffer.bytes i hi)

/-- A page in place stays there when another one is mapped. -/
theorem Placed.adds {frame page' : Nat} {pmm pmm' : PhysicalMemory N} {flags : PageFlags}
    {buffer : List UInt8} (hp : Placed s segment page')
    (h : Machine.Adds ms page flags buffer s frame s' pmm pmm') : Placed s' segment page' := by
  obtain ⟨f, pmm₁, hpmm, haligned, hmapping, hfree, htable, hbytes⟩ := hp
  obtain rfl : pmm = pmm₁ := Option.some.inj (h.before.symm.trans hpmm)
  have hne : page' ≠ page := by
    rintro rfl
    have hnone : mapper.mapping s.tables page' = none := h.memory.unmapped
    rw [hnone] at hmapping
    cases hmapping
  rw [Set.disjoint_left] at hfree
  refine ⟨f, pmm', h.after, haligned, ?_, ?_, ?_, ?_⟩
  · show mapper.mapping (s'.memory pmm').tables page' = _
    rw [h.memory.mapped, Function.update_of_ne hne]
    exact hmapping
  · rw [Set.disjoint_left]
    intro a ha hin
    exact hfree ha (h.memory.shrinks hin).1
  · intro hin
    rcases h.memory.frames f hin with hold | hnew
    · exact htable hold
    · exact hfree (self_mem_framePoints f) hnew.1
  · intro i hi
    have hbyte := h.memory.bytes (f + i)
    have hother : f + i ∉ framePoints frame := fun hin =>
      hfree (mem_framePoints.mpr ⟨by omega, by omega⟩) (h.memory.fresh hin)
    rw [if_neg hother] at hbyte
    exact hbyte.trans (hbytes i hi)

/-- From `s₀`, exactly the pages of the given parts have been loaded. -/
structure Staged (ms : List Region) (root : Nat) (s₀ : Machine mapper)
    (parts : List (LoadSegment × Span)) (s : Machine mapper) : Prop where
  ready : s.Ready ms root
  placed : ∀ part ∈ parts, ∀ page ∈ part.2.points, Placed s part.1 page
  vacant : ∀ part ∈ parts, ∀ page ∈ part.2.points, mapper.mapping s₀.tables page = none
  below : ∀ part ∈ parts, ∀ page ∈ part.2.points, page * pageSize < USER_LIMIT
  apart : parts.Pairwise fun part part' => Disjoint part.2.points part'.2.points
  others : ∀ page, (∀ part ∈ parts, page ∉ part.2.points) →
    mapper.mapping s.tables page = mapper.mapping s₀.tables page

theorem Staged.init (h : s₀.Ready ms root) : Staged ms root s₀ [] s₀ :=
  ⟨h, by simp, by simp, by simp, .nil, fun _ _ => rfl⟩

/-- A part with no page yet. -/
theorem Staged.start {parts : List (LoadSegment × Span)} (h : Staged ms root s₀ parts s)
    (segment : LoadSegment) (lo : Nat) : Staged ms root s₀ ((segment, ⟨lo, lo⟩) :: parts) s := by
  have hempty : ∀ p, p ∉ (⟨lo, lo⟩ : Span).points := fun p hp => absurd (hp.1.trans_lt hp.2) (by simp)
  refine ⟨h.ready, ?_, ?_, ?_, ?_, ?_⟩
  · rw [List.forall_mem_cons]
    exact ⟨fun p hp => absurd hp (hempty p), h.placed⟩
  · rw [List.forall_mem_cons]
    exact ⟨fun p hp => absurd hp (hempty p), h.vacant⟩
  · rw [List.forall_mem_cons]
    exact ⟨fun p hp => absurd hp (hempty p), h.below⟩
  · refine List.pairwise_cons.mpr ⟨fun part _ => ?_, h.apart⟩
    exact Set.disjoint_left.mpr fun p hp => absurd hp (hempty p)
  · intro p hp
    exact h.others p fun part hpart => hp part (List.mem_cons_of_mem _ hpart)

/-- **Step**: one more page at the end of the last part. -/
theorem Staged.grow {parts : List (LoadSegment × Span)} {lo frame : Nat}
    {pmm pmm' : PhysicalMemory N} {buffer : List UInt8}
    (h : Staged ms root s₀ ((segment, ⟨lo, page⟩) :: parts) s) (hlo : lo ≤ page)
    (hbelow : page * pageSize < USER_LIMIT) (hbuffer : PageOf segment (page * pageSize) buffer)
    (hready : s'.Ready ms root)
    (hadds : Machine.Adds ms page (userFlags segment.writable segment.executable) buffer s frame s'
      pmm pmm') : Staged ms root s₀ ((segment, ⟨lo, page + 1⟩) :: parts) s' := by
  have hgrown : ∀ p, p ∈ (⟨lo, page + 1⟩ : Span).points ↔
      p ∈ (⟨lo, page⟩ : Span).points ∨ p = page := by
    intro p
    show lo ≤ p ∧ p < page + 1 ↔ (lo ≤ p ∧ p < page) ∨ p = page
    omega
  -- the page was mapped by no part, and not before either
  have hnew : ∀ part ∈ (segment, ⟨lo, page⟩) :: parts, page ∉ part.2.points := by
    intro part hpart hin
    obtain ⟨_, _, _, _, hmapping, _⟩ := h.placed part hpart page hin
    have hnone : mapper.mapping s.tables page = none := hadds.memory.unmapped
    rw [hnone] at hmapping
    cases hmapping
  have hvacant : mapper.mapping s₀.tables page = none :=
    (h.others page hnew).symm.trans hadds.memory.unmapped
  obtain ⟨hplacedLast, hplaced⟩ := List.forall_mem_cons.mp h.placed
  obtain ⟨hvacantLast, hvacants⟩ := List.forall_mem_cons.mp h.vacant
  obtain ⟨hbelowLast, hbelows⟩ := List.forall_mem_cons.mp h.below
  obtain ⟨hapart, haparts⟩ := List.pairwise_cons.mp h.apart
  refine ⟨hready, List.forall_mem_cons.mpr ⟨?_, ?_⟩, List.forall_mem_cons.mpr ⟨?_, hvacants⟩,
    List.forall_mem_cons.mpr ⟨?_, hbelows⟩, List.pairwise_cons.mpr ⟨?_, haparts⟩, ?_⟩
  · intro p hp
    rcases (hgrown p).mp hp with hp | rfl
    · exact (hplacedLast p hp).adds hadds
    · exact placed_of_adds hbuffer hadds
  · intro part hpart p hp
    exact (hplaced part hpart p hp).adds hadds
  · intro p hp
    rcases (hgrown p).mp hp with hp | rfl
    · exact hvacantLast p hp
    · exact hvacant
  · intro p hp
    rcases (hgrown p).mp hp with hp | rfl
    · exact hbelowLast p hp
    · exact hbelow
  · intro part hpart
    refine Set.disjoint_left.mpr fun p hp hin => ?_
    rcases (hgrown p).mp hp with hp | rfl
    · exact Set.disjoint_left.mp (hapart part hpart) hp hin
    · exact hnew part (List.mem_cons_of_mem _ hpart) hin
  · intro p hp
    obtain ⟨hpLast, hps⟩ := List.forall_mem_cons.mp hp
    rw [hgrown, not_or] at hpLast
    have hsame := h.others p (List.forall_mem_cons.mpr ⟨hpLast.1, hps⟩)
    show mapper.mapping (s'.memory pmm').tables p = _
    rw [hadds.memory.mapped, Function.update_of_ne hpLast.2]
    exact hsame

/-- **Run**: the loop over the pages of a segment. -/
theorem loadPages_runs (hmapper : mapper.Exact) {parts : List (LoadSegment × Span)} {lo hi : Nat}
    (hhi : hi * pageSize ≤ USER_LIMIT) (n : Nat) :
    ∀ page s, hi - page = n → lo ≤ page → page ≤ hi →
      Staged ms root s₀ ((segment, ⟨lo, page⟩) :: parts) s →
      Runs (loadPages root segment (hi * pageSize)
        (segment.virtualAddress + segment.fileData.length) (page * pageSize)) s fun _ s' =>
          Staged ms root s₀ ((segment, ⟨lo, hi⟩) :: parts) s' := by
  have hsize : pageSize = 4096 := rfl
  have hlimit : USER_LIMIT + pageSize < wordSize := lt_wordSize (by decide)
  induction n with
  | zero =>
      intro page s hn _ hle h
      obtain rfl : page = hi := by omega
      rw [loadPages, if_neg (by omega)]
      exact Routine.Runs.pure h
  | succ n ih =>
      intro page s hn hlo _ h
      have hstep : page * pageSize + pageSize = (page + 1) * pageSize := by
        rw [Nat.add_mul, Nat.one_mul]
      have hle : (page + 1) * pageSize ≤ hi * pageSize := Nat.mul_le_mul_right _ (by omega)
      obtain ⟨buffer, hbuffer, hpage⟩ := @initialPage_ok segment (page * pageSize) (by omega)
      rw [loadPages, if_pos (by omega)]
      apply Routine.Runs.bind (Routine.Runs.lift_ok hbuffer _)
      apply Routine.Runs.bind
      apply (Machine.mapUserPage_runs hmapper h.ready page segment.writable segment.executable
        buffer).mono
      intro frame s' hmapped
      obtain ⟨hbelow, hready, pmm, pmm', hadds⟩ := hmapped
      rw [if_pos (by omega), hstep]
      exact ih (page + 1) s' (by omega) (by omega) (by omega)
        (h.grow hlo hbelow hpage hready hadds)

/-- The pages of a segment; none when its memory is empty. -/
def LoadSegment.pages (segment : LoadSegment) : Span :=
  if segment.memorySize = 0 then ⟨0, 0⟩
  else ⟨segment.virtualAddress / pageSize,
    (segment.virtualAddress + segment.memorySize + (pageSize - 1)) / pageSize⟩

theorem loadSegment_runs (hmapper : mapper.Exact) {parts : List (LoadSegment × Span)}
    (h : Staged ms root s₀ parts s) :
    Runs (loadSegment root segment) s fun _ s' =>
      Staged ms root s₀ ((segment, segment.pages) :: parts) s' := by
  have hsize : pageSize = 4096 := rfl
  have hlimit : USER_LIMIT + pageSize < wordSize := lt_wordSize (by decide)
  have haligned : USER_LIMIT = 2 ^ 27 * pageSize := rfl
  unfold loadSegment LoadSegment.pages
  by_cases hzero : segment.memorySize = 0
  · rw [if_pos hzero, if_pos hzero]
    exact Routine.Runs.pure (h.start segment 0)
  rw [if_neg hzero, if_neg hzero]
  apply Routine.Runs.bind (Routine.Runs.reject _)
  intro hva
  apply Routine.Runs.bind (Routine.Runs.lift Fallible.Decides.checkedAdd _)
  intro _
  apply Routine.Runs.bind (Routine.Runs.reject _)
  intro hend
  rw [alignUp_pageSize (by omega), alignDown_pageSize (by omega)]
  apply Routine.Runs.bind (Routine.Runs.lift_ok rfl _)
  apply Routine.Runs.bind (Routine.Runs.lift Fallible.Decides.checkedAdd _)
  intro _
  apply loadPages_runs hmapper _ _ _ _ rfl le_rfl _ (h.start segment _)
  · rw [haligned]
    have hpages : (segment.virtualAddress + segment.memorySize + (pageSize - 1)) / pageSize <
        2 ^ 27 + 1 := Nat.div_lt_of_lt_mul (by omega)
    exact Nat.mul_le_mul_right _ (by omega)
  · exact Nat.div_le_div_right (by omega)

theorem loadSegments_runs (hmapper : mapper.Exact) (segments : List LoadSegment) :
    ∀ parts s, Staged ms root s₀ parts s →
      Runs (loadSegments root segments) s fun _ s' =>
        Staged ms root s₀ (segments.reverse.map (fun segment => (segment, segment.pages)) ++ parts) s' := by
  induction segments with
  | nil =>
      intro parts s h
      exact Routine.Runs.pure h
  | cons segment rest ih =>
      intro parts s h
      apply Routine.Runs.bind
      apply (loadSegment_runs hmapper h).mono
      intro _ s' h'
      have hrest := ih _ s' h'
      rw [List.reverse_cons, List.map_append, List.append_assoc]
      exact hrest

end Run

/-! ## The loaded image -/

variable {N : Nat} {mapper : Mapper N}

/-- The addresses of a segment, rounded to pages. -/
def LoadSegment.range (segment : LoadSegment) : Set Nat :=
  {a | segment.memorySize ≠ 0 ∧ segment.virtualAddress / pageSize * pageSize ≤ a ∧
    a < (segment.virtualAddress + segment.memorySize + (pageSize - 1)) / pageSize * pageSize}

/-- `s'` is `s` with the memory that the segments describe: each address of a
segment on a user page of this segment alone, with the byte of the file or zero
and the segment's permissions, and every other page as before. -/
structure Loads (image : ElfImage) (s s' : Machine mapper) : Prop where
  below : ∀ segment ∈ image.segments, ∀ a ∈ segment.range, a < USER_LIMIT
  alone : image.segments.Pairwise fun segment segment' => Disjoint segment.range segment'.range
  vacant : ∀ segment ∈ image.segments, ∀ a ∈ segment.range,
    mapper.mapping s.tables (a / pageSize) = none
  contents : ∀ segment ∈ image.segments, ∀ a ∈ segment.range, ∃ frame,
    mapper.mapping s'.tables (a / pageSize) = some (frame,
      { present := true, userAccessible := true, writable := segment.writable
        noExecute := !segment.executable }) ∧
    pageSize ∣ frame ∧ frame ∉ mapper.frames s'.tables ∧
    s'.bytes (frame + a % pageSize) =
      if segment.virtualAddress ≤ a ∧ a < segment.virtualAddress + segment.fileData.length then
        segment.fileData.items[a - segment.virtualAddress]?.getD 0
      else 0
  others : ∀ page, (∀ segment ∈ image.segments, page * pageSize ∉ segment.range) →
    mapper.mapping s'.tables page = mapper.mapping s.tables page

theorem LoadSegment.mem_range {segment : LoadSegment} {a : Nat} :
    a ∈ segment.range ↔ a / pageSize ∈ segment.pages.points := by
  have hpos : 0 < pageSize := by decide
  unfold LoadSegment.range LoadSegment.pages
  split
  · simp [*]
  · rw [Span.mem_points, Set.mem_ofPred_eq, Nat.le_div_iff_mul_le hpos, Nat.div_lt_iff_lt_mul hpos]
    simp [*]

theorem LoadSegment.byteAt_eq (segment : LoadSegment) (a : Nat) :
    segment.byteAt a =
      if segment.virtualAddress ≤ a ∧ a < segment.virtualAddress + segment.fileData.length then
        segment.fileData.items[a - segment.virtualAddress]?.getD 0
      else 0 := by
  split
  · rename_i hin
    rw [LoadSegment.byteAt, if_pos hin.1]
  · exact LoadSegment.byteAt_outside (by omega)

theorem Staged.loads {ms : List Region} {root : Nat} {image : ElfImage} {s s' : Machine mapper}
    (h : Staged ms root s (image.segments.reverse.map (fun segment => (segment, segment.pages))) s') :
    Loads image s s' := by
  have hpart : ∀ segment ∈ image.segments, (segment, segment.pages) ∈
      image.segments.reverse.map fun segment => (segment, segment.pages) := fun segment hmem =>
    List.mem_map.mpr ⟨segment, List.mem_reverse.mpr hmem, rfl⟩
  have hpage : ∀ a, a / pageSize * pageSize + a % pageSize = a := fun a => by
    rw [Nat.mul_comm]
    exact Nat.div_add_mod a pageSize
  have hmod : ∀ a, a % pageSize < pageSize := fun a => Nat.mod_lt a (by decide)
  refine ⟨?_, ?_, ?_, ?_, ?_⟩
  · intro segment hmem a ha
    have hbelow := h.below _ (hpart segment hmem) _ (LoadSegment.mem_range.mp ha)
    have hlimit : USER_LIMIT = 2 ^ 27 * pageSize := rfl
    have hlt := Nat.lt_of_mul_lt_mul_right (hlimit ▸ hbelow)
    have hle := Nat.mul_le_mul_right pageSize (Nat.succ_le_of_lt hlt)
    have := hpage a
    have := hmod a
    rw [Nat.succ_mul] at hle
    omega
  · have hpairs := List.pairwise_map.mp h.apart
    rw [List.pairwise_reverse] at hpairs
    refine hpairs.imp fun hdisjoint => Set.disjoint_left.mpr fun a ha hb => ?_
    exact Set.disjoint_left.mp hdisjoint (LoadSegment.mem_range.mp hb) (LoadSegment.mem_range.mp ha)
  · intro segment hmem a ha
    exact h.vacant _ (hpart segment hmem) _ (LoadSegment.mem_range.mp ha)
  · intro segment hmem a ha
    obtain ⟨frame, _, _, haligned, hmapping, _, htable, hbytes⟩ :=
      h.placed _ (hpart segment hmem) _ (LoadSegment.mem_range.mp ha)
    refine ⟨frame, hmapping, haligned, htable, ?_⟩
    rw [hbytes _ (hmod a), hpage a]
    exact segment.byteAt_eq a
  · intro page hnone
    refine h.others page fun part hmem hin => ?_
    obtain ⟨segment, hsegment, rfl⟩ := List.mem_map.mp hmem
    refine hnone segment (List.mem_reverse.mp hsegment) (LoadSegment.mem_range.mpr ?_)
    rwa [Nat.mul_div_cancel _ (by decide)]

/-- The kernel at the call: the manager is one that its calls reach, the direct
map covers the tables and the managed memory, and no table is free memory. -/
def Booted (root : Nat) (s : Machine mapper) : Prop :=
  ∀ offset pmm, s.physicalMemoryOffset = some offset → s.physicalMemory = some pmm →
    (∃ regions m₀, PhysicalMemory.new regions = .ok m₀ ∧ PhysicalMemory.Reached m₀ pmm) ∧
    DirectMap offset root pmm.managedRegions ∧
    ∀ f ∈ mapper.frames s.tables, f ∉ cover pmm.freeRegions

theorem Booted.ready {root : Nat} {s : Machine mapper} (h : Booted root s) :
    ∃ ms, s.Ready ms root := by
  cases hpmm : s.physicalMemory with
  | none => exact ⟨[], fun offset pmm _ hsome => by rw [hpmm] at hsome; cases hsome⟩
  | some pmm =>
      refine ⟨pmm.managedRegions, fun offset pmm' hoffset hsome => ?_⟩
      obtain rfl : pmm = pmm' := Option.some.inj (hpmm.symm.trans hsome)
      obtain ⟨⟨regions, m₀, hnew, hreached⟩, hmap, htables⟩ := h offset pmm hoffset hsome
      obtain ⟨ms, fs, hm, hsound⟩ := hreached.stands hnew
      have hms : pmm.managedRegions = ms := hm.managed.take
      exact ⟨hmap, ⟨by rw [hms]; exact ⟨fs, hm, hsound⟩, htables⟩⟩

/-- Loading an image does not panic, and on success the address space has gained
exactly the memory that the segments describe. -/
theorem loadImage_loads (hmapper : mapper.Exact) (image : ElfImage) (root : Nat)
    (s : Machine mapper) (hs : Booted root s) :
    ((loadImage image root).run s).1 ≠ .panic ∧
      (((loadImage image root).run s).1 = .ok () →
        Loads image s ((loadImage image root).run s).2) := by
  obtain ⟨ms, hready⟩ := hs.ready
  have hruns : (loadImage image root).Runs s fun _ s' => Loads image s s' := by
    apply Routine.Runs.bind (Routine.Runs.reject _)
    intro _
    apply (loadSegments_runs hmapper image.segments [] s (.init hready)).mono
    intro _ s' hstaged
    rw [List.append_nil] at hstaged
    exact hstaged.loads
  exact ⟨hruns.ne_panic, hruns.returns ()⟩

/-- Tables kept as a list, with one more frame for each mapped page. -/
structure ListTables where
  frames : List Nat
  entries : List (Nat × Nat × PageFlags)

def listMapper (N : Nat) : Mapper N where
  Tables := ListTables
  frames t := {f | f ∈ t.frames}
  mapping t page := t.entries.lookup page
  translateAddr t a :=
    (t.entries.lookup (a / pageSize)).map fun entry => entry.1 + a % pageSize
  mapTo t m page frame flags :=
    match m.allocateFrame with
    | (.ok (some f), m') => (true, ⟨f :: t.frames, (page, frame, flags) :: t.entries⟩, m')
    | (_, m') => (false, t, m')

theorem listMapper_exact (N : Nat) : (listMapper N).Exact := by
  refine ⟨?_, ?_, ?_⟩
  · intro t a
    simp [listMapper]
  · intro t t' m m' page frame flags h
    funext p
    simp only [listMapper] at h ⊢
    split at h
    · obtain ⟨_, rfl, _⟩ := h
      by_cases hp : p = page
      · simp [hp]
      · rw [Function.update_of_ne hp, List.lookup_cons, beq_false_of_ne hp]
    · simp at h
  · intro t t' m m' page frame flags done h
    simp only [listMapper] at h ⊢
    split at h
    · rename_i f m₁ halloc
      obtain ⟨_, rfl, rfl⟩ := h
      exact ⟨[f], .frame halloc .done, by simp [or_comm]⟩
    · rename_i r m₁ hno halloc
      obtain ⟨_, rfl, rfl⟩ := h
      exact ⟨[], .refused halloc hno .done, by simp⟩

/-- A writable segment across two pages, with three bytes in the file. -/
def twoPageImage : ElfImage where
  entry := 4224
  segments := [{
    virtualAddress := 4224
    memorySize := 5000
    fileData := ⟨[1, 2, 3], by rw [wordSize]; decide⟩
    readable := true
    writable := true
    executable := false
    alignment := 4096 }]

/-- A manager of six pages. -/
def sixPages : PhysicalMemory 2 :=
  ⟨#v[⟨8192, 32768⟩, ⟨0, 0⟩], 1, #v[⟨8192, 32768⟩, ⟨0, 0⟩], 1, 24576, 24576⟩

/-- A machine with six free pages and a root table at 4096. -/
def sixPageMachine : Machine (listMapper 2) where
  physicalMemoryOffset := some 0
  physicalMemory := some sixPages
  bytes := fun _ => 7
  tables := ⟨[4096], []⟩

theorem booted_sixPageMachine : Booted 4096 sixPageMachine := by
  intro offset pmm hoffset hpmm
  obtain rfl : 0 = offset := Option.some.inj hoffset
  obtain rfl : sixPages = pmm := Option.some.inj hpmm
  have hnew : PhysicalMemory.new [⟨8192, 32768⟩] = .ok sixPages := by decide +kernel
  have hcover : ∀ f, f ∈ cover [(⟨8192, 32768⟩ : Region)] ↔ 8192 ≤ f ∧ f < 32768 := fun f => by
    simp [cover]
  have hmanaged : sixPages.managedRegions = [⟨8192, 32768⟩] := rfl
  have hfree : sixPages.freeRegions = [⟨8192, 32768⟩] := rfl
  rw [hmanaged, hfree]
  refine ⟨⟨_, _, hnew, .init⟩, ⟨.inl (by decide), by decide, ⟨by rw [wordSize]; decide,
    .inl (by decide)⟩, ?_⟩, ?_⟩
  · intro f hf _
    obtain ⟨_, hlt⟩ := (hcover f).mp hf
    have hword : 32768 < wordSize := lt_wordSize (by decide)
    exact ⟨by omega, by omega, .inl (by omega)⟩
  · intro f hf
    obtain rfl : f = 4096 := List.mem_singleton.mp hf
    rw [hcover]
    omega

theorem loadImage_loads_twoPages :
    ((loadImage twoPageImage 4096).run sixPageMachine).1 = .ok () ∧
      Loads twoPageImage sixPageMachine ((loadImage twoPageImage 4096).run sixPageMachine).2 := by
  have hok : ((loadImage twoPageImage 4096).run sixPageMachine).1 = .ok () := by decide +kernel
  exact ⟨hok, (loadImage_loads (listMapper_exact 2) twoPageImage 4096 sixPageMachine
    booted_sixPageMachine).2 hok⟩

end GenericKernel.Process
