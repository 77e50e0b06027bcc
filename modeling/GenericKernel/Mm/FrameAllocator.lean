import GenericKernel.Lib.Enumeration
import GenericKernel.Mm.PhysicalExact

/-!
# The bootstrap frame allocator (`kernel-core/src/lib.rs`)

`FrameAllocator` walks the borrowed firmware map with a cursor and rounds as it
goes; `PhysicalMemory` rounds and merges the map first and then takes pages off
its free list. `frames_agree` says that both hand out the same frames: the pages
of the map above page zero, ascending. Each of them enumerates that set
(`Lib.Enumerates`), so the two sequences are one list.
-/

namespace GenericKernel.Mm

open GenericKernel.Lib

inductive MapError
  | reversedRange
  | overlapOrUnsorted
  deriving DecidableEq, Repr

/-- The map, the region under the cursor, and the end of the last frame. -/
structure FrameAllocator where
  regions : List Region
  index : Nat
  next : Nat
  deriving DecidableEq, Repr

namespace FrameAllocator

/-- The loop of `new`. -/
def check : List Region → Nat → Except MapError Unit
  | [], _ => .ok ()
  | region :: regions, previousEnd =>
      if region.stop < region.start then .error .reversedRange
      else if region.start < previousEnd then .error .overlapOrUnsorted
      else check regions region.stop

def new (regions : List Region) : Except MapError FrameAllocator :=
  match check regions 0 with
  | .error e => .error e
  | .ok _ => .ok ⟨regions, 0, pageSize⟩

/-- The frame found in one region, with its end. -/
def candidate (next : Nat) (region : Region) : Option (Nat × Nat) :=
  match alignUp (max (max next region.start) pageSize) pageSize with
  | none => none
  | some frame =>
      match checkedAdd frame pageSize with
      | none => none
      | some stop => if stop ≤ region.stop then some (frame, stop) else none

/-- The `while let` loop, over the regions from `index` on. -/
def allocateLoop (self : FrameAllocator) : List Region → Option Nat × FrameAllocator
  | [] => (none, self)
  | region :: rest =>
      match candidate self.next region with
      | some (frame, stop) => (some frame, { self with next := stop })
      | none => allocateLoop { self with index := self.index + 1 } rest

def allocate (self : FrameAllocator) : Option Nat × FrameAllocator :=
  self.allocateLoop (self.regions.drop self.index)

/-! ## What the cursor has left -/

/-- Regions in order, each with ordered word ends. -/
structure Ordered (regions : List Region) : Prop where
  ends : ∀ r ∈ regions, r.start ≤ r.stop ∧ r.stop < wordSize
  apart : regions.Pairwise fun a b => a.stop ≤ b.start

/-- The pages from the cursor on. -/
def remaining (self : FrameAllocator) : Set Nat :=
  {a | pageSize ∣ a ∧ self.next ≤ a ∧ PhysicalMemory.PageIn (self.regions.drop self.index) a}

theorem candidate_eq_fit (next : Nat) (region : Region) :
    candidate next region = (PhysicalMemory.fit pageSize pageSize
      ⟨max (max next region.start) pageSize, region.stop⟩).map fun b => (b.start, b.stop) := by
  unfold candidate PhysicalMemory.fit
  cases alignUp (max (max next region.start) pageSize) pageSize with
  | none => rfl
  | some frame =>
      dsimp only
      cases checkedAdd frame pageSize with
      | none => rfl
      | some stop =>
          by_cases hfit : stop ≤ region.stop
          · simp [hfit, Nat.not_lt.mpr hfit]
          · simp [hfit, Nat.lt_of_not_le hfit]

/-- A region the loop leaves behind has no page left. -/
theorem not_pageIn_of_candidate_eq_none {next a : Nat} {region : Region}
    (hword : region.stop < wordSize) (h : candidate next region = none) (ha : pageSize ∣ a)
    (hnext : next ≤ a) : ¬ PhysicalMemory.PageIn [region] a := by
  rw [candidate_eq_fit, Option.map_eq_none_iff] at h
  simp only [PhysicalMemory.PageIn, List.mem_singleton, exists_eq_left]
  rintro ⟨habove, hl, hr⟩
  have hskipped := PhysicalMemory.not_fits_of_fit_eq_none isPowerOfTwo_pageSize
    pageSize_le_wordSize (by exact hword) h ha (by show max (max next region.start) pageSize ≤ a; omega)
  dsimp only at hskipped
  omega

/-- The frame it finds is the first page left there. -/
theorem candidate_spec {next frame stop : Nat} {region : Region}
    (h : candidate next region = some (frame, stop)) :
    stop = frame + pageSize ∧ pageSize ∣ frame ∧ next ≤ frame ∧
      PhysicalMemory.PageIn [region] frame ∧
      ∀ a, pageSize ∣ a → next ≤ a → PhysicalMemory.PageIn [region] a → frame ≤ a := by
  rw [candidate_eq_fit, Option.map_eq_some_iff] at h
  obtain ⟨b, hfit, hb⟩ := h
  obtain ⟨rfl, rfl⟩ := Prod.mk.inj hb
  obtain ⟨hl, hstop, hr, hdvd, _, hleast⟩ :=
    PhysicalMemory.fit_spec isPowerOfTwo_pageSize pageSize_le_wordSize hfit
  dsimp only at hl hr
  simp only [PhysicalMemory.PageIn, List.mem_singleton, exists_eq_left]
  refine ⟨hstop, hdvd, by omega, by omega, fun a ha hnext hpage => ?_⟩
  exact hleast a ha (by show max (max next region.start) pageSize ≤ a; omega)

theorem Ordered.tail {region : Region} {rest : List Region} (h : Ordered (region :: rest)) :
    Ordered rest :=
  ⟨fun r hr => h.ends r (List.mem_cons_of_mem _ hr), (List.pairwise_cons.mp h.apart).2⟩

/-- **Step**: one call takes the least page that is left. -/
theorem allocateLoop_spec (rest : List Region) : ∀ self : FrameAllocator,
    self.regions.drop self.index = rest → Ordered rest →
    (self.remaining = ∅ ∧ (self.allocateLoop rest).1 = none ∧
      (self.allocateLoop rest).2.remaining = ∅ ∧
      Ordered ((self.allocateLoop rest).2.regions.drop (self.allocateLoop rest).2.index)) ∨
    ∃ a, IsLeast self.remaining a ∧ (self.allocateLoop rest).1 = some a ∧
      (self.allocateLoop rest).2.remaining = self.remaining \ {a} ∧
      Ordered ((self.allocateLoop rest).2.regions.drop (self.allocateLoop rest).2.index) := by
  induction rest with
  | nil =>
      intro self hrest hordered
      have hempty : self.remaining = ∅ := by
        simp [remaining, hrest, PhysicalMemory.PageIn]
      refine .inl ⟨hempty, rfl, hempty, ?_⟩
      show Ordered (self.regions.drop self.index)
      rw [hrest]
      exact hordered
  | cons region rest ih =>
      intro self hrest hordered
      unfold allocateLoop
      cases hcandidate : candidate self.next region with
      | none =>
          -- nothing is lost by moving the cursor on
          have hnext : self.regions.drop (self.index + 1) = rest := by
            rw [← List.drop_drop, hrest]
            rfl
          have hsame : ({ self with index := self.index + 1 } : FrameAllocator).remaining =
              self.remaining := by
            ext a
            simp only [remaining, Set.mem_ofPred_eq, hrest, hnext]
            rw [PhysicalMemory.pageIn_cons]
            refine and_congr_right fun ha => and_congr_right fun hle => ?_
            have hnone := not_pageIn_of_candidate_eq_none
              (hordered.ends region (by simp)).2 hcandidate ha hle
            simp [hnone]
          have hstep := ih { self with index := self.index + 1 } hnext hordered.tail
          rw [hsame] at hstep
          exact hstep
      | some found =>
          obtain ⟨frame, stop⟩ := found
          obtain ⟨rfl, hdvd, hge, hpage, hleast⟩ := candidate_spec hcandidate
          have hfirst : IsLeast self.remaining frame := by
            refine ⟨⟨hdvd, hge, ?_⟩, ?_⟩
            · rw [hrest, PhysicalMemory.pageIn_cons]
              exact .inl hpage
            · rintro a ⟨ha, hle, hin⟩
              rw [hrest, PhysicalMemory.pageIn_cons] at hin
              rcases hin with hin | hin
              · exact hleast a ha hle hin
              · obtain ⟨_, s, hs, hl, _⟩ := hin
                have := (List.pairwise_cons.mp hordered.apart).1 s hs
                simp only [PhysicalMemory.PageIn, List.mem_singleton, exists_eq_left] at hpage
                omega
          refine .inr ⟨frame, hfirst, rfl, ?_, ?_⟩
          · ext a
            show pageSize ∣ a ∧ frame + pageSize ≤ a ∧ _ ↔ _
            constructor
            · rintro ⟨ha, hle, hin⟩
              have : pageSize = 4096 := rfl
              exact ⟨⟨ha, by omega, hin⟩, fun heq => by
                rw [Set.mem_singleton_iff] at heq
                omega⟩
            · rintro ⟨⟨ha, hle, hin⟩, hne⟩
              have := hfirst.2 ⟨ha, hle, hin⟩
              have := Nat.le_of_dvd (by
                rw [Set.mem_singleton_iff] at hne
                omega) (Nat.dvd_sub ha hdvd)
              exact ⟨ha, by omega, hin⟩
          · show Ordered (self.regions.drop self.index)
            rw [hrest]
            exact hordered

theorem enumerates : Enumerates allocate id fun self R =>
    R = self.remaining ∧ Ordered (self.regions.drop self.index) := by
  refine ⟨?_⟩
  rintro self R ⟨rfl, hordered⟩
  rcases allocateLoop_spec _ self rfl hordered with
    ⟨hempty, hnone, hafter, hordered'⟩ | ⟨a, ha, hsome, hafter, hordered'⟩
  · exact .inl ⟨hempty, hnone, hafter.symm, hordered'⟩
  · exact .inr ⟨a, ha, hsome, hafter.symm, hordered'⟩

/-- The map that `new` accepts, and the cursor it starts with. -/
theorem check_ordered (regions : List Region) : ∀ previousEnd, check regions previousEnd = .ok () →
    (∀ r ∈ regions, r.stop < wordSize) →
    Ordered regions ∧ ∀ r ∈ regions, previousEnd ≤ r.start := by
  induction regions with
  | nil => exact fun _ _ _ => ⟨⟨by simp, List.Pairwise.nil⟩, by simp⟩
  | cons region regions ih =>
      intro previousEnd h hword
      unfold check at h
      split at h
      · cases h
      split at h
      · cases h
      rename_i hrev hord
      obtain ⟨hordered, hbehind⟩ := ih region.stop h fun r hr =>
        hword r (List.mem_cons_of_mem _ hr)
      refine ⟨⟨?_, List.pairwise_cons.mpr ⟨hbehind, hordered.apart⟩⟩, ?_⟩
      · intro r hr
        rcases List.mem_cons.mp hr with rfl | hr
        · exact ⟨Nat.le_of_not_lt hrev, hword r (by simp)⟩
        · exact hordered.ends r hr
      · intro r hr
        rcases List.mem_cons.mp hr with rfl | hr
        · exact Nat.le_of_not_lt hord
        · have := hbehind r hr
          omega

end FrameAllocator

/-! ## The free list as a set of pages -/

/-- The pages of a region, in the order of the list. -/
theorem mem_regionPages {r : Region} (hr : PageSpan r) {a : Nat} :
    a ∈ regionPages r ↔ pageSize ∣ a ∧ a ∈ r.points := by
  obtain ⟨x, hx⟩ := hr.start_aligned
  obtain ⟨y, hy⟩ := hr.stop_aligned
  have hcount : (r.stop - r.start) / pageSize = y - x := by
    rw [hx, hy, ← Nat.mul_sub, Nat.mul_div_cancel_left _ (by decide)]
  simp only [regionPages, List.mem_map, List.mem_range, Span.mem_points, hcount]
  constructor
  · rintro ⟨k, hk, rfl⟩
    have := Nat.mul_le_mul_left pageSize (show x + k + 1 ≤ y by omega)
    rw [Nat.mul_add, Nat.mul_add, Nat.mul_one] at this
    have : 0 < pageSize := by decide
    refine ⟨Nat.dvd_add hr.start_aligned (Nat.dvd_mul_left _ _), by omega, ?_⟩
    rw [Nat.mul_comm k]
    omega
  · rintro ⟨⟨z, rfl⟩, hl, hu⟩
    rw [hx] at hl
    rw [hy] at hu
    have hxz : x ≤ z := Nat.le_of_mul_le_mul_left hl (by decide)
    have hzy : z < y := Nat.lt_of_mul_lt_mul_left hu
    refine ⟨z - x, by omega, ?_⟩
    rw [hx, Nat.mul_comm (z - x), ← Nat.mul_add, Nat.add_sub_cancel' hxz]

theorem mem_freePageList {fs : List Region} (hfs : PageList fs) {a : Nat} :
    a ∈ freePageList fs ↔ pageSize ∣ a ∧ a ∈ cover fs := by
  simp only [freePageList, List.mem_flatMap]
  constructor
  · rintro ⟨r, hr, ha⟩
    obtain ⟨hdvd, hin⟩ := (mem_regionPages (hfs.pages r hr)).mp ha
    exact ⟨hdvd, r, hr, hin⟩
  · rintro ⟨hdvd, r, hr, hin⟩
    exact ⟨r, hr, (mem_regionPages (hfs.pages r hr)).mpr ⟨hdvd, hin⟩⟩

theorem freePageList_ascending {fs : List Region} (hfs : PageList fs) :
    (freePageList fs).Pairwise (· < ·) := by
  refine List.pairwise_flatMap.mpr ⟨fun r _ => ?_, ?_⟩
  · refine List.pairwise_map.mpr (List.pairwise_lt_range.imp fun h => ?_)
    have := Nat.mul_lt_mul_of_pos_right h (show 0 < pageSize by decide)
    omega
  · refine List.Pairwise.imp_of_mem (fun {r s} hr hs hapart a ha b hb => ?_)
      hfs.separated.apart
    have ha := ((mem_regionPages (hfs.pages r hr)).mp ha).2
    have hb := ((mem_regionPages (hfs.pages s hs)).mp hb).2
    simp only [Span.mem_points] at ha hb
    omega

theorem length_freePageList {fs : List Region} (hfs : ∀ r ∈ fs, PageSpan r) :
    (freePageList fs).length * pageSize = totalLength fs := by
  induction fs with
  | nil => rfl
  | cons r fs ih =>
      have hr := hfs r (by simp)
      have hlength : (regionPages r).length * pageSize = r.length := by
        simp only [regionPages, List.length_map, List.length_range]
        exact Nat.div_mul_cancel (Nat.dvd_sub hr.stop_aligned hr.start_aligned)
      rw [PhysicalMemory.freePageList_cons, List.length_append, Nat.add_mul, hlength,
        ih fun s hs => hfs s (List.mem_cons_of_mem _ hs), totalLength_cons]

namespace PhysicalMemory

variable {N : Nat}

/-- The free pages of a state. -/
def Left (m : PhysicalMemory N) (R : Set Nat) : Prop :=
  ∃ ms fs, m.Shows ms fs ∧ PageList fs ∧ R = {a | pageSize ∣ a ∧ a ∈ cover fs}

/-- **Step**: `allocate_frame` takes the least free page. -/
theorem enumerates : Enumerates (allocateFrame : PhysicalMemory N → _) Except.ok Left := by
  refine ⟨?_⟩
  rintro m R ⟨ms, fs, hm, hfs, rfl⟩
  cases fs with
  | nil =>
      rw [allocateFrame_nil hm]
      exact .inl ⟨by simp, rfl, ms, [], hm, hfs, by simp⟩
  | cons r fs =>
      have hr := hfs.pages r (by simp)
      have hne := hfs.separated.nonempty r (by simp)
      obtain ⟨hroom, _⟩ := regionPages_eq_cons hr hne
      obtain ⟨m', hok, hm'⟩ := allocateFrame_cons hm hr hne
      have hpos : 0 < pageSize := by decide
      set b : Span := ⟨r.start, r.start + pageSize⟩ with hb
      have hbne : b.start < b.stop := by
        show r.start < r.start + pageSize
        omega
      have hsep := @Separated.carve [] fs r b hfs.separated le_rfl hroom hbne
      have hcover := @cover_carve [] fs r b hfs.separated le_rfl hroom hbne
      rw [List.nil_append] at hsep hcover
      have hpages : PageList (remainder r b ++ fs) := by
        refine pageList_of_paged hfs hsep ?_ (by rw [hcover]; exact Set.sdiff_subset)
        rw [hcover]
        exact hfs.paged.diff (paged_points hr.start_aligned
          (Nat.dvd_add hr.start_aligned (dvd_refl _)))
      rw [hok]
      refine .inr ⟨r.start, ⟨⟨hr.start_aligned, r, by simp, le_rfl, hne⟩, ?_⟩, rfl,
        ms, _, hm', hpages, ?_⟩
      · rintro a ⟨_, s, hs, hin⟩
        simp only [Span.mem_points] at hin
        rcases List.mem_cons.mp hs with rfl | hs
        · exact hin.1
        · have := (Separated.cons_iff.mp hfs.separated).2.2 s hs
          omega
      · -- the block holds one multiple of the page size
        rw [hcover]
        ext a
        simp only [Set.mem_sdiff, Set.mem_ofPred_eq, Set.mem_singleton_iff, and_assoc]
        refine and_congr_right fun ha => and_congr_right fun _ => not_congr ?_
        show a = r.start ↔ r.start ≤ a ∧ a < r.start + pageSize
        constructor
        · rintro rfl
          omega
        · rintro ⟨hl, hu⟩
          by_contra hne'
          have := Nat.le_of_dvd (by omega) (Nat.dvd_sub ha hr.start_aligned)
          omega

end PhysicalMemory

/-! ## Agreement -/

/-- `PhysicalMemory::new` makes the checks of `FrameAllocator::new`. -/
theorem FrameAllocator.check_of_newLoop {N : Nat} (regions : List Region) :
    ∀ (m m' : PhysicalMemory N) (previousEnd : Nat),
    PhysicalMemory.newLoop regions m previousEnd = .ok m' → check regions previousEnd = .ok () := by
  induction regions with
  | nil => exact fun _ _ _ _ => rfl
  | cons region regions ih =>
      intro m m' previousEnd h
      unfold PhysicalMemory.newLoop at h
      unfold check
      split at h
      · cases h
      split at h
      · cases h
      rename_i hrev hord
      rw [if_neg hrev, if_neg hord]
      split at h
      · cases h
      · dsimp only at h
        split at h
        · exact ih _ _ _ h
        · split at h
          · cases h
          · exact ih _ _ _ h

/-- **The two allocators agree.** On every map that `PhysicalMemory::new` accepts,
both hand out the pages above page zero that lie in one region of the map,
ascending, and then nothing. -/
theorem frames_agree {N : Nat} {regions : List Region} {m : PhysicalMemory N}
    (hword : ∀ r ∈ regions, r.stop < wordSize) (hnew : PhysicalMemory.new regions = .ok m) :
    ∃ (f : FrameAllocator) (frames : List Nat), FrameAllocator.new regions = .ok f ∧
      frames.Pairwise (· < ·) ∧
      (∀ a, a ∈ frames ↔ a ≠ 0 ∧ pageSize ∣ a ∧
        ∃ r ∈ regions, r.start ≤ a ∧ a + pageSize ≤ r.stop) ∧
      frames.length = m.totalBytes / pageSize ∧
      (∀ n, output FrameAllocator.allocate f n = frames[n]?) ∧
      ∀ n, output PhysicalMemory.allocateFrame m n = .ok frames[n]? := by
  obtain ⟨l, hm, hl, hpages⟩ := PhysicalMemory.new_pages hnew hword
  have hcheck := FrameAllocator.check_of_newLoop regions _ _ 0 hnew
  obtain ⟨hordered, _⟩ := FrameAllocator.check_ordered regions 0 hcheck hword
  have hsorted := freePageList_ascending hl
  have hmem : ∀ a, a ∈ freePageList l ↔ pageSize ∣ a ∧ PhysicalMemory.PageIn regions a := by
    intro a
    rw [mem_freePageList hl]
    exact and_congr_right (hpages a)
  refine ⟨⟨regions, 0, pageSize⟩, freePageList l, ?_, hsorted, fun a => ?_, ?_, fun n => ?_,
    fun n => ?_⟩
  · simp [FrameAllocator.new, hcheck]
  · rw [hmem]
    have habove : pageSize ∣ a → (pageSize ≤ a ↔ a ≠ 0) := fun ha =>
      ⟨fun h => (lt_of_lt_of_le (by decide) h).ne', fun h => Nat.le_of_dvd (by omega) ha⟩
    unfold PhysicalMemory.PageIn
    tauto
  · rw [hm.totalBytes, ← length_freePageList hl.pages, Nat.mul_div_cancel _ (by decide)]
  · refine FrameAllocator.enumerates.output_eq n ⟨rfl, hordered⟩ hsorted fun a => ?_
    rw [hmem]
    refine and_congr_right fun ha => ?_
    show _ ↔ pageSize ≤ a ∧ PhysicalMemory.PageIn regions a
    exact ⟨fun h => ⟨h.1, h⟩, fun h => h.2⟩
  · exact PhysicalMemory.enumerates.output_eq n ⟨l, l, hm, hl, rfl⟩ hsorted
      fun a => mem_freePageList hl

/-- Two regions, with the last page of the first one cut off. -/
theorem frames_agree_twoRegions : ∃ (m : PhysicalMemory 4) (f : FrameAllocator) (frames : List Nat),
    PhysicalMemory.new [⟨0, 10000⟩, ⟨12288, 20480⟩] = .ok m ∧
    FrameAllocator.new [⟨0, 10000⟩, ⟨12288, 20480⟩] = .ok f ∧
    (∀ n, output FrameAllocator.allocate f n = frames[n]?) ∧
    ∀ n, output PhysicalMemory.allocateFrame m n = .ok frames[n]? := by
  have hnew : PhysicalMemory.new [⟨0, 10000⟩, ⟨12288, 20480⟩] =
      .ok (⟨#v[⟨4096, 8192⟩, ⟨12288, 20480⟩, ⟨0, 0⟩, ⟨0, 0⟩], 2,
        #v[⟨4096, 8192⟩, ⟨12288, 20480⟩, ⟨0, 0⟩, ⟨0, 0⟩], 2, 12288, 12288⟩ :
          PhysicalMemory 4) := by decide +kernel
  obtain ⟨f, frames, hf, _, _, _, hboot, hphysical⟩ := frames_agree (by
    rw [wordSize]
    decide) hnew
  exact ⟨_, f, frames, hnew, hf, hboot, hphysical⟩

end GenericKernel.Mm
