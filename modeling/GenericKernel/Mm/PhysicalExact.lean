import GenericKernel.Mm.PhysicalFrames

/-!
# Exact results of the physical memory manager

The ledger follows runs in which only live blocks are freed. Here the calls are
arbitrary, and each result is given for every state they reach:

* `allocatePages_firstFit` — the lowest aligned address at which the request fits
  inside one free region, with the one case in which the table has no slot left
  for the split;
* `freePages_exact` — the value of `free_pages` on every argument. Its checks on the
  two counters, made after the list was changed, never fail.
-/

namespace GenericKernel.Mm

open GenericKernel.Lib

theorem Paged.union {S T : Set Nat} (hS : Paged S) (hT : Paged T) : Paged (S ∪ T) := by
  intro x y hxy hx
  exact hx.imp (hS x y hxy) (hT x y hxy)

namespace PhysicalMemory

variable {N : Nat}

/-! ## Arbitrary runs -/

/-- The state a call leaves. -/
def after (m : PhysicalMemory N) : Call → PhysicalMemory N
  | .allocatePages pages alignPages => (m.allocatePages pages alignPages).2
  | .allocateFrame => m.allocateFrame.2
  | .freePages start pages => (m.freePages start pages).2

/-- The states that calls of any kind reach. -/
inductive Reached (m₀ : PhysicalMemory N) : PhysicalMemory N → Prop
  | init : Reached m₀ m₀
  | step {m : PhysicalMemory N} (call : Call) : Reached m₀ m → Reached m₀ (m.after call)

section Sound

variable {ms fs fs' : List Region} {pages alignPages : Nat} {b : Span}

theorem Carved.nonempty (h : Carved pages alignPages fs b fs') : b.start < b.stop := by
  have hpos := Nat.mul_pos (Nat.pos_of_ne_zero h.valid.1) (show 0 < pageSize by decide)
  rw [h.size]
  omega

theorem Carved.span (h : Carved pages alignPages fs b fs') : b = pageBlock b.start pages := by
  show b = ⟨b.start, b.start + pages * pageSize⟩
  rw [← h.size]

theorem ManagedBlock.paged {start : Nat} (h : ManagedBlock ms start pages) :
    Paged (pageBlock start pages).points :=
  paged_points h.aligned (Nat.dvd_add h.aligned (Nat.dvd_mul_left _ _))

/-- A carved block leaves the free set without it. -/
theorem Sound.carved (hs : Sound ms fs) (h : Carved pages alignPages fs b fs') :
    Sound ms fs' ∧ cover fs' = cover fs \ b.points := by
  have hblock := Ledger.managedBlock_of_carved hs h
  have hpaged : Paged b.points := by
    rw [h.span]
    exact hblock.paged
  have hne := h.nonempty
  obtain ⟨l₁, r, l₂, rfl, _, hl, hr, rfl⟩ := h.carve
  have hcover := cover_carve hs.free.separated hl hr hne
  have hsub : cover (l₁ ++ remainder r b ++ l₂) ⊆ cover ms := by
    rw [hcover]
    exact Set.sdiff_subset.trans hs.sub
  have hpages : Paged (cover (l₁ ++ remainder r b ++ l₂)) := by
    rw [hcover]
    exact hs.free.paged.diff hpaged
  have hsep := hs.free.separated.carve hl hr hne
  exact ⟨⟨hs.managed, pageList_of_paged hs.managed hsep hpages hsub, hsub⟩, hcover⟩

/-- A managed block added to the free set. -/
theorem Sound.grown {start : Nat} (hs : Sound ms fs) (hblock : ManagedBlock ms start pages)
    (hsep : Separated fs') (hcover : cover fs' = cover fs ∪ (pageBlock start pages).points) :
    Sound ms fs' := by
  have hsub : cover fs' ⊆ cover ms := by
    rw [hcover]
    exact Set.union_subset hs.sub hblock.points_subset
  have hpages : Paged (cover fs') := by
    rw [hcover]
    exact hs.free.paged.union hblock.paged
  exact ⟨hs.managed, pageList_of_paged hs.managed hsep hpages hsub, hsub⟩

end Sound

/-- The invariant of arbitrary runs. -/
def Stands (m : PhysicalMemory N) (ms : List Region) : Prop := ∃ fs, m.Shows ms fs ∧ Sound ms fs

/-- **Step**: every call keeps the lists sound. -/
theorem Stands.after {m : PhysicalMemory N} {ms : List Region} (h : m.Stands ms) (call : Call) :
    (m.after call).Stands ms := by
  have hallocate : ∀ pages alignPages, Stands (m.allocatePages pages alignPages).2 ms := by
    intro pages alignPages
    obtain ⟨fs, hm, hs⟩ := h
    rcases allocatePages_cases hm pages alignPages with
      ⟨e, he⟩ | hnone | ⟨b, fs', m', hok, hcarved, hm'⟩
    · rw [he]
      exact ⟨fs, hm, hs⟩
    · rw [hnone]
      exact ⟨fs, hm, hs⟩
    · rw [hok]
      exact ⟨fs', hm', (hs.carved hcarved).1⟩
  cases call with
  | allocatePages pages alignPages => exact hallocate pages alignPages
  | allocateFrame => exact hallocate 1 1
  | freePages start pages =>
      obtain ⟨fs, hm, hs⟩ := h
      show Stands (m.freePages start pages).2 ms
      rcases freePages_cases hm hs start pages with
        ⟨hblock, _, _, fs', m', hok, hm', hsep', hcover'⟩ | ⟨_, e, he⟩
      · rw [hok]
        exact ⟨fs', hm', hs.grown hblock hsep' hcover'⟩
      · rw [he]
        exact ⟨fs, hm, hs⟩

/-- **Run**: the invariant holds in every state of an accepted map. -/
theorem Reached.stands {regions : List Region} {m₀ m : PhysicalMemory N}
    (hnew : new regions = .ok m₀) (h : Reached m₀ m) : ∃ ms, m.Stands ms := by
  obtain ⟨ms, hm, hms⟩ := new_shows hnew
  refine ⟨ms, ?_⟩
  induction h with
  | init => exact ⟨ms, hm, hms, hms, subset_rfl⟩
  | step call _ ih => exact ih.after call

/-- One frame: none, or a whole page that was free and no longer is. -/
theorem Stands.allocateFrame {m : PhysicalMemory N} {ms : List Region} (h : m.Stands ms) :
    (∃ r, m.allocateFrame = (r, m) ∧ ∀ f, r ≠ .ok (some f)) ∨
    ∃ f m', m.allocateFrame = (.ok (some f), m') ∧ m'.Stands ms ∧ pageSize ∣ f ∧
      (pageBlock f 1).points ⊆ cover m.freeRegions ∧
      cover m'.freeRegions = cover m.freeRegions \ (pageBlock f 1).points := by
  obtain ⟨fs, hm, hs⟩ := h
  have hfree : m.freeRegions = fs := hm.free.take
  unfold PhysicalMemory.allocateFrame
  rcases allocatePages_cases hm 1 1 with ⟨e, he⟩ | hnone | ⟨b, fs', m', hok, hcarved, hm'⟩
  · exact .inl ⟨_, he, by simp⟩
  · exact .inl ⟨_, hnone, by simp⟩
  · obtain ⟨hs', hcover⟩ := hs.carved hcarved
    have hfree' : m'.freeRegions = fs' := hm'.free.take
    have hblock := Ledger.managedBlock_of_carved hs hcarved
    have hspan := hcarved.span
    have hsub : b.points ⊆ cover fs := by
      obtain ⟨l₁, r, l₂, rfl, _, hl, hr, _⟩ := hcarved.carve
      intro x hx
      exact ⟨r, by simp, hl.trans hx.1, lt_of_lt_of_le hx.2 hr⟩
    refine .inr ⟨b.start, m', hok, ⟨fs', hm', hs'⟩, hblock.aligned, ?_, ?_⟩
    · rw [← hspan, hfree]
      exact hsub
    · rw [← hspan, hfree', hfree, hcover]

/-! ## First fit -/

/-- The addresses at which an aligned block of `size` bytes fits one free region. -/
def placements (m : PhysicalMemory N) (size alignment : Nat) : Set Nat :=
  {a | alignment ∣ a ∧ ∃ r ∈ m.freeRegions, r.start ≤ a ∧ a + size ≤ r.stop}

section Fit

variable {size alignment a : Nat} {r : Region} {b : Span}

/-- A region that the loop skips has no place, however close to 2^64 it lies. -/
theorem not_fits_of_fit_eq_none (ha : isPowerOfTwo alignment = true) (hle : alignment ≤ wordSize)
    (hword : r.stop < wordSize) (h : fit size alignment r = none) (hdvd : alignment ∣ a)
    (hl : r.start ≤ a) : r.stop < a + size := by
  unfold fit at h
  cases hup : alignUp r.start alignment with
  | none =>
      rw [alignUp_eq_none] at hup
      by_contra hr
      -- `a` and 2^64 are multiples of the alignment, so they are that far apart
      have hpow : alignment ∣ wordSize := by
        obtain ⟨k, rfl⟩ := isPowerOfTwo_iff.mp ha
        rw [wordSize]
        exact Nat.pow_dvd_pow 2 (exponent_le hle)
      have := Nat.le_of_dvd (by omega) (Nat.dvd_sub hpow hdvd)
      omega
  | some start =>
      have hstart := alignUp_le ha hle hup hl hdvd
      cases hadd : checkedAdd start size with
      | none =>
          rw [checkedAdd_eq_none] at hadd
          omega
      | some stop =>
          simp only [hup, hadd] at h
          split at h
          · obtain ⟨rfl, _⟩ := checkedAdd_eq_some.mp hadd
            omega
          · cases h

end Fit

/-- The result of `allocate_pages`, on every request. -/
structure FirstFit (m : PhysicalMemory N) (pages alignPages : Nat) : Prop where
  invalid : pages = 0 ∨ alignPages = 0 ∨ isPowerOfTwo alignPages = false →
    m.allocatePages pages alignPages = (.error .invalidRequest, m)
  overflow : pages ≠ 0 → isPowerOfTwo alignPages = true →
    wordSize ≤ pages * pageSize ∨ wordSize ≤ alignPages * pageSize →
    m.allocatePages pages alignPages = (.error .overflow, m)
  none_iff : ValidRequest pages alignPages →
    ((m.allocatePages pages alignPages).1 = .ok none ↔
      m.placements (pages * pageSize) (alignPages * pageSize) = ∅)
  least : ValidRequest pages alignPages → ∀ a,
    IsLeast (m.placements (pages * pageSize) (alignPages * pageSize)) a →
    ∀ r ∈ m.freeRegions, r.start ≤ a → a + pages * pageSize ≤ r.stop →
    if r.start < a ∧ a + pages * pageSize < r.stop ∧ m.freeLen = N then
      m.allocatePages pages alignPages = (.error .capacity, m)
    else ∃ m', m.allocatePages pages alignPages = (.ok (some a), m') ∧
      m'.managedRegions = m.managedRegions ∧
      cover m'.freeRegions = cover m.freeRegions \ (pageBlock a pages).points
  unchanged : ∀ e m', m.allocatePages pages alignPages = (.error e, m') → m' = m

section Allocate

variable {m : PhysicalMemory N} {ms fs : List Region} {pages alignPages : Nat}

theorem ValidRequest.span_nonempty (h : ValidRequest pages alignPages) (start : Nat) :
    (pageBlock start pages).start < (pageBlock start pages).stop := by
  have hpos := Nat.mul_pos (Nat.pos_of_ne_zero h.1) (show 0 < pageSize by decide)
  show start < start + pages * pageSize
  omega

/-- **First fit**, by what the loop meets. -/
theorem allocatePages_loop (hm : m.Shows ms fs) (hs : Sound ms fs)
    (hvalid : ValidRequest pages alignPages) :
    (m.allocatePages pages alignPages = (.ok none, m) ∧
      m.placements (pages * pageSize) (alignPages * pageSize) = ∅) ∨
    ∃ l₁ r l₂ b, fs = l₁ ++ r :: l₂ ∧ b = pageBlock b.start pages ∧ r.start ≤ b.start ∧
      b.stop ≤ r.stop ∧
      IsLeast (m.placements (pages * pageSize) (alignPages * pageSize)) b.start ∧
      m.allocatePages pages alignPages = m.allocateAt l₁.length r b.start b.stop := by
  obtain ⟨hpages, hpow, hsize, halign⟩ := hvalid
  have hpow' := isPowerOfTwo_mul_pageSize hpow
  have hfree : m.freeRegions = fs := hm.free.take
  have hrange : List.range m.freeLen = List.range' ([] : List Region).length fs.length := by
    rw [hm.free.length, List.range_eq_range', List.length_nil]
  rw [allocatePages_valid ⟨hpages, hpow, hsize, halign⟩, hrange]
  unfold placements
  rw [hfree]
  rcases allocateLoop_cases fs [] hm.free (by simp) with
    ⟨hskip, hnone⟩ | ⟨l₁, r, l₂, b, hfs, hskip, hfit, hat⟩
  · refine .inl ⟨hnone, Set.eq_empty_of_forall_notMem ?_⟩
    rintro a ⟨hdvd, r, hr, hl, hu⟩
    have hword := (hs.free.pages r hr).below_word
    have := not_fits_of_fit_eq_none hpow' halign.le hword (hskip r hr) hdvd hl
    omega
  · rw [List.nil_append] at hfs
    obtain ⟨hl, hstop, hr, hdvd, _, hleast⟩ := fit_spec hpow' halign.le hfit
    have hrmem : r ∈ fs := by simp [hfs]
    refine .inr ⟨l₁, r, l₂, b, hfs, ?_, hl, hr, ⟨⟨hdvd, r, hrmem, hl, hstop ▸ hr⟩, ?_⟩, hat⟩
    · show b = ⟨b.start, b.start + pages * pageSize⟩
      rw [← hstop]
    · -- an earlier region was skipped, and a later one starts behind the block
      rintro a ⟨hadvd, s, hsmem, hal, hau⟩
      subst hfs
      rcases List.mem_append.mp hsmem with hs₁ | hs₂
      · have hword := (hs.free.pages s hsmem).below_word
        have := not_fits_of_fit_eq_none hpow' halign.le hword (hskip s hs₁) hadvd hal
        omega
      · rcases List.mem_cons.mp hs₂ with rfl | hs₂
        · exact hleast _ hadvd hal
        · have hsep := (Separated.append_iff.mp hs.free.separated).2.1
          have := (Separated.cons_iff.mp hsep).2.2 s hs₂
          omega

theorem firstFit_of_sound (hm : m.Shows ms fs) (hs : Sound ms fs) (pages alignPages : Nat) :
    m.FirstFit pages alignPages := by
  have hfree : m.freeRegions = fs := hm.free.take
  refine ⟨allocatePages_badRequest, allocatePages_overflow, fun hvalid => ?_,
    fun hvalid a ha r hr hl hu => ?_, fun e m' he => ?_⟩
  · rcases allocatePages_loop hm hs hvalid with
      ⟨hnone, hempty⟩ | ⟨l₁, r, l₂, b, rfl, hspan, hbl, hbr, hleast, hat⟩
    · simp [hnone, hempty]
    · have hplaces := Set.Nonempty.ne_empty ⟨_, hleast.1⟩
      have hne := (hvalid.span_nonempty b.start)
      rw [← hspan] at hne
      rw [hat]
      rcases allocateAt_shows hm hbl hbr hne with ⟨_, _, _, hcap⟩ | ⟨_, m', hok, _⟩
      · simp [hcap, hplaces]
      · simp [hok, hplaces]
  · rcases allocatePages_loop hm hs hvalid with
      ⟨_, hempty⟩ | ⟨l₁, s, l₂, b, rfl, hspan, hbl, hbr, hleast, hat⟩
    · rw [hempty] at ha
      exact absurd ha.1 (Set.notMem_empty a)
    · obtain rfl := ha.unique hleast
      have hne := hvalid.span_nonempty b.start
      have hstop : b.stop = b.start + pages * pageSize := by
        rw [hspan]
        rfl
      rw [← hspan] at hne
      rw [hfree] at hr
      -- the region that holds the block is the one the loop stopped at
      obtain rfl : r = s := hs.free.separated.eq_of_mem hr (by simp)
        (x := b.start) ⟨hl, by omega⟩ ⟨hbl, by omega⟩
      rw [hat, ← hstop, ← hspan]
      rcases allocateAt_shows hm hbl hbr hne with ⟨hfront, hback, hfull, hcap⟩ | ⟨hroom, m', hok, hm'⟩
      · rw [if_pos ⟨hfront, hback, hfull⟩]
        exact hcap
      · rw [if_neg hroom]
        refine ⟨m', hok, ?_, ?_⟩
        · exact hm'.managed.take.trans hm.managed.take.symm
        · rw [hfree, show m'.freeRegions = _ from hm'.free.take]
          exact cover_carve hs.free.separated hbl hbr hne
  · rcases allocatePages_cases hm pages alignPages with ⟨e', he'⟩ | hnone | ⟨b, fs', m'', hok, _⟩
    · rw [he'] at he
      exact (Prod.mk.inj he).2.symm
    · rw [hnone] at he
      cases he
    · rw [hok] at he
      cases he

/-- A frame never needs a split: free regions start on a page. -/
theorem allocateFrame_ok (hm : m.Shows ms fs) (hs : Sound ms fs) (e : PhysicalMemoryError) :
    m.allocateFrame.1 ≠ .error e := by
  cases fs with
  | nil => simp [allocateFrame_nil hm]
  | cons r fs =>
      have hne := hs.free.separated.nonempty r (by simp)
      obtain ⟨m', hok, _⟩ := allocateFrame_cons hm (hs.free.pages r (by simp)) hne
      simp [hok]

end Allocate

/-- **`allocate_pages` is exact first fit** in every state that calls of any kind
reach, and `allocate_frame` never fails. -/
theorem allocatePages_firstFit {regions : List Region} {m₀ m : PhysicalMemory N}
    (hnew : new regions = .ok m₀) (h : Reached m₀ m) :
    (∀ pages alignPages, m.FirstFit pages alignPages) ∧ ∀ e, m.allocateFrame.1 ≠ .error e := by
  obtain ⟨ms, fs, hm, hs⟩ := h.stands hnew
  exact ⟨firstFit_of_sound hm hs, allocateFrame_ok hm hs⟩

/-- One region of eight pages, of which the first is taken. -/
theorem allocatePages_firstFit_eightPages : ∃ m₀ : PhysicalMemory 2,
    new [⟨4096, 36864⟩] = .ok m₀ ∧ ∀ pages alignPages,
      (m₀.after .allocateFrame).FirstFit pages alignPages := by
  have hnew : new [⟨4096, 36864⟩] = .ok (⟨#v[⟨4096, 36864⟩, ⟨0, 0⟩], 1,
      #v[⟨4096, 36864⟩, ⟨0, 0⟩], 1, 32768, 32768⟩ : PhysicalMemory 2) := by decide +kernel
  exact ⟨_, hnew, (allocatePages_firstFit hnew (.step .allocateFrame .init)).1⟩

/-! ## Freeing -/

/-- The result of `free_pages`, on every argument. -/
structure FreesExactly (m : PhysicalMemory N) (start pages : Nat) : Prop where
  accepted_iff : (m.freePages start pages).1 = .ok () ↔
    0 < pages ∧ pageSize ∣ start ∧ pageSize ≤ start ∧ start + pages * pageSize < wordSize ∧
    (∃ r ∈ m.managedRegions, r.start ≤ start ∧ start + pages * pageSize ≤ r.stop) ∧
    (∀ r ∈ m.freeRegions, Disjoint r.points (pageBlock start pages).points) ∧
    (Touches m.freeRegions (pageBlock start pages) ∨ m.freeLen < N)
  grows : ∀ m', m.freePages start pages = (.ok (), m') →
    m'.managedRegions = m.managedRegions ∧
    cover m'.freeRegions = cover m.freeRegions ∪ (pageBlock start pages).points
  unchanged : ∀ e m', m.freePages start pages = (.error e, m') → m' = m
  -- no error comes from a counter: each has its cause in the arguments and the lists
  overflow : (m.freePages start pages).1 = .error .overflow → wordSize ≤ start + pages * pageSize
  invalidFree : (m.freePages start pages).1 = .error .invalidFree →
    pages = 0 ∨ start < pageSize ∨ ¬ pageSize ∣ start ∨
    (¬ ∃ r ∈ m.managedRegions, r.start ≤ start ∧ start + pages * pageSize ≤ r.stop) ∨
    ∃ r ∈ m.freeRegions, ¬ Disjoint r.points (pageBlock start pages).points

theorem disjoint_cover_iff {l : List Span} {S : Set Nat} :
    Disjoint (cover l) S ↔ ∀ r ∈ l, Disjoint r.points S := by
  simp only [Set.disjoint_left, cover, Set.mem_ofPred_eq, forall_exists_index, and_imp]
  exact ⟨fun h r hr x hx => h r hr hx, fun h x r hr hx => h r hr hx⟩

section Free

variable {m : PhysicalMemory N} {ms fs : List Region}

theorem freesExactly_of_sound (hm : m.Shows ms fs) (hs : Sound ms fs) (start pages : Nat) :
    m.FreesExactly start pages := by
  have hfree : m.freeRegions = fs := hm.free.take
  have hman : m.managedRegions = ms := hm.managed.take
  have hblock : ManagedBlock ms start pages ↔ 0 < pages ∧ pageSize ∣ start ∧ pageSize ≤ start ∧
      start + pages * pageSize < wordSize ∧
      ∃ r ∈ ms, r.start ≤ start ∧ start + pages * pageSize ≤ r.stop :=
    ⟨fun h => ⟨Nat.pos_of_ne_zero h.pages_ne, h.aligned, h.above_null, h.below_word, h.managed⟩,
      fun h => ⟨h.1.ne', h.2.2.1, h.2.1, h.2.2.2.1, h.2.2.2.2⟩⟩
  have hcondition : ((m.freePages start pages).1 = .ok () ↔ ManagedBlock ms start pages ∧
      Disjoint (cover fs) (pageBlock start pages).points ∧
      (m.freeLen < N ∨ Touches fs (pageBlock start pages))) := by
    rcases freePages_cases hm hs start pages with ⟨h₁, h₂, h₃, fs', m', hok, _⟩ | ⟨hnot, e, he⟩
    · simp [hok, h₁, h₂, h₃]
    · simp [he, hnot]
  refine ⟨?_, fun m' hok => ?_, fun e m' he => ?_, fun he => ?_, fun he => ?_⟩
  · rw [hcondition, hblock, hfree, hman, disjoint_cover_iff, or_comm]
    simp only [and_assoc]
  · rcases freePages_cases hm hs start pages with
      ⟨_, _, _, fs', m'', hok', hm', _, hcover⟩ | ⟨_, e, he⟩
    · rw [hok'] at hok
      obtain rfl := (Prod.mk.inj hok).2
      rw [hfree, show m''.freeRegions = _ from hm'.free.take]
      exact ⟨hm'.managed.take.trans hman.symm, hcover⟩
    · rw [he] at hok
      cases hok
  · rcases freePages_cases hm hs start pages with ⟨_, _, _, fs', m'', hok, _⟩ | ⟨_, e', he'⟩
    · rw [hok] at he
      cases he
    · rw [he'] at he
      exact (Prod.mk.inj he).2.symm
  · by_contra hword
    simp only [not_le] at hword
    by_cases hstart : pages = 0 ∨ start < pageSize ∨ ¬ pageSize ∣ start
    · simp [freePages_badStart hstart] at he
    by_cases hmanaged : ∃ r ∈ ms, r.start ≤ start ∧ start + pages * pageSize ≤ r.stop
    · simp only [not_or, not_lt, not_not] at hstart
      have hblock' : ManagedBlock ms start pages :=
        ⟨hstart.1, hstart.2.1, hstart.2.2, hword, hmanaged⟩
      rcases freePages_managed hm hs hblock' with ⟨_, h⟩ | ⟨_, h⟩ | ⟨_, _, fs', m', h, _⟩
      · simp [h] at he
      · simp [h] at he
      · simp [h] at he
    · simp [freePages_unmanaged hm hstart hword hmanaged] at he
  · by_cases hstart : pages = 0 ∨ start < pageSize ∨ ¬ pageSize ∣ start
    · tauto
    by_cases hword : start + pages * pageSize < wordSize
    · rw [hman, hfree]
      by_cases hmanaged : ∃ r ∈ ms, r.start ≤ start ∧ start + pages * pageSize ≤ r.stop
      · simp only [not_or, not_lt, not_not] at hstart
        have hblock' : ManagedBlock ms start pages :=
          ⟨hstart.1, hstart.2.1, hstart.2.2, hword, hmanaged⟩
        rcases freePages_managed hm hs hblock' with ⟨hover, _⟩ | ⟨_, h⟩ | ⟨_, _, fs', m', h, _⟩
        · rw [disjoint_cover_iff] at hover
          simp only [not_forall] at hover
          obtain ⟨r, hr, hmeets⟩ := hover
          exact .inr (.inr (.inr (.inr ⟨r, hr, hmeets⟩)))
        · simp [h] at he
        · simp [h] at he
      · exact .inr (.inr (.inr (.inl hmanaged)))
    · simp [freePages_overflow hstart (Nat.le_of_not_lt hword)] at he

end Free

/-- **`free_pages` is exact** in every state that calls of any kind reach. -/
theorem freePages_exact {regions : List Region} {m₀ m : PhysicalMemory N}
    (hnew : new regions = .ok m₀) (h : Reached m₀ m) (start pages : Nat) :
    m.FreesExactly start pages := by
  obtain ⟨ms, fs, hm, hs⟩ := h.stands hnew
  exact freesExactly_of_sound hm hs start pages

/-- One region of eight pages, of which the first is taken. -/
theorem freePages_exact_eightPages : ∃ m₀ : PhysicalMemory 2,
    new [⟨4096, 36864⟩] = .ok m₀ ∧ (m₀.after .allocateFrame).FreesExactly 4096 1 := by
  have hnew : new [⟨4096, 36864⟩] = .ok (⟨#v[⟨4096, 36864⟩, ⟨0, 0⟩], 1,
      #v[⟨4096, 36864⟩, ⟨0, 0⟩], 1, 32768, 32768⟩ : PhysicalMemory 2) := by decide +kernel
  exact ⟨_, hnew, freePages_exact hnew (.step .allocateFrame .init) 4096 1⟩

end PhysicalMemory

end GenericKernel.Mm
