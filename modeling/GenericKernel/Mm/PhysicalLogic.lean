import GenericKernel.Mm.Physical

/-!
# What each physical-memory operation does

One specification per operation of `PhysicalMemory`, in terms of the region
lists the two arrays stand for (`Shows`):

* `new_shows` — an accepted map leaves the same page list managed and free;
* `allocatePages_cases` — an allocation fails without effect or carves the
  first fitting block out of one free region;
* `freePages_cases` — a free is accepted, and coalesced, exactly for a managed
  block that meets no free page and finds a slot; otherwise it changes nothing.
-/

namespace GenericKernel.Mm

open GenericKernel.Lib

/-- A page-aligned region above page zero, with word ends. -/
structure PageSpan (s : Region) : Prop where
  start_aligned : pageSize ∣ s.start
  stop_aligned : pageSize ∣ s.stop
  above_null : pageSize ≤ s.start
  below_word : s.stop < wordSize

/-- Separated page spans. -/
structure PageList (l : List Region) : Prop where
  separated : Separated l
  pages : ∀ s ∈ l, PageSpan s

theorem PageList.nil : PageList [] := ⟨Separated.nil, by simp⟩

variable {N : Nat} {l ms fs regions : List Region} {m m' : PhysicalMemory N} {region : Region}
  {start pages alignPages : Nat} {b : Span}

/-- The bytes of a page list fit a word. -/
theorem PageList.totalLength_lt (h : PageList l) : totalLength l < wordSize := by
  have hle := h.separated.totalLength_le (show ∀ s ∈ l, s.stop ≤ wordSize - 1 from fun s hs => by
    have := (h.pages s hs).below_word
    omega)
  have := wordSize_pos
  omega

/-- Appending a page span behind a gap. -/
theorem PageList.concat {r : Region} (h : PageList l) (hne : r.start < r.stop) (hr : PageSpan r)
    (hgap : ∀ s ∈ l, s.stop < r.start) : PageList (l ++ [r]) := by
  refine ⟨h.separated.append (Separated.singleton hne) ?_, ?_⟩
  · intro a ha b hb
    rw [List.mem_singleton.mp hb]
    exact hgap a ha
  · intro s hs
    rcases List.mem_append.mp hs with hs | hs
    · exact h.pages s hs
    · rw [List.mem_singleton.mp hs]
      exact hr

namespace PhysicalMemory

/-- The arrays and counters of `m` stand for the managed list `ms` and the
free list `fs`. -/
structure Shows (m : PhysicalMemory N) (ms fs : List Region) : Prop where
  managed : Holds m.managed m.managedLen ms
  free : Holds m.free m.freeLen fs
  totalBytes : m.totalBytes = totalLength ms
  freeBytes : m.freeBytes = totalLength fs

/-- The two lists determine the whole state. -/
theorem Shows.unique (h : m.Shows ms fs) (h' : m'.Shows ms fs) : m = m' := by
  obtain ⟨h₁, h₂⟩ := h.managed.unique h'.managed
  obtain ⟨h₃, h₄⟩ := h.free.unique h'.free
  exact PhysicalMemory.ext h₁ h₂ h₃ h₄ (h.totalBytes.trans h'.totalBytes.symm)
    (h.freeBytes.trans h'.freeBytes.symm)

/-! ## The initial map -/

theorem empty_shows : (empty : PhysicalMemory N).Shows [] [] := by
  refine ⟨⟨rfl, ?_⟩, ⟨rfl, ?_⟩, rfl, rfl⟩
  · simp [empty]
  · simp [empty]

/-- Accounting for one more initial region. -/
theorem countInitial_eq {bytes : Nat} (h : m.countInitial bytes = .ok m') :
    m' = { m with totalBytes := m.totalBytes + bytes, freeBytes := m.freeBytes + bytes } := by
  unfold countInitial at h
  cases ht : checkedAdd m.totalBytes bytes with
  | none => simp [ht] at h
  | some total =>
      cases hf : checkedAdd m.freeBytes bytes with
      | none => simp [ht, hf] at h
      | some free =>
          obtain ⟨rfl, _⟩ := checkedAdd_eq_some.mp ht
          obtain ⟨rfl, _⟩ := checkedAdd_eq_some.mp hf
          simp only [ht, hf, Except.ok.injEq] at h
          exact h.symm

/-- Pushing a page span behind everything managed so far: it is appended, or
the last region grows over it. -/
theorem pushInitial_shows (hm : m.Shows l l) (hl : PageList l) (hne : region.start < region.stop)
    (hpage : PageSpan region) (hbehind : ∀ s ∈ l, s.stop ≤ region.start)
    (h : m.pushInitial region = .ok m') :
    ∃ l', m'.Shows l' l' ∧ PageList l' ∧ (∀ s ∈ l', s.stop ≤ region.stop) ∧
      cover l' = cover l ∪ region.points := by
  have hlen := hm.managed.length
  have hflen := hm.free.length
  unfold pushInitial at h
  dsimp only at h
  split at h
  · rename_i htouch
    have hnil : l ≠ [] := by
      intro hnil
      rw [hnil] at hlen
      simp only [List.length_nil] at hlen
      omega
    obtain ⟨l₀, p, rfl⟩ : ∃ l₀ p, l = l₀ ++ [p] :=
      ⟨l.dropLast, l.getLast hnil, (List.dropLast_append_getLast hnil).symm⟩
    rw [List.length_append, List.length_singleton] at hlen hflen
    have hindex : m.managedLen - 1 = l₀.length := by omega
    have hfindex : m.freeLen - 1 = l₀.length := by omega
    have hlast : m.managed[l₀.length]! = p := hm.managed.getElem!
    have hflast : m.free[l₀.length]! = p := hm.free.getElem!
    rw [hindex, hlast] at htouch
    rw [hindex, hfindex, hlast, hflast] at h
    obtain ⟨hsep, _, hgap⟩ := Separated.append_iff.mp hl.separated
    have hp : p ∈ l₀ ++ [p] := List.mem_append_right _ List.mem_cons_self
    have hpne := hl.separated.nonempty p hp
    have hgrow : totalLength (l₀ ++ [p]) + (region.stop - region.start) =
        totalLength (l₀ ++ [⟨p.start, region.stop⟩]) := by
      simp only [totalLength_append, totalLength_cons, totalLength_nil, Span.length]
      omega
    rw [countInitial_eq h]
    refine ⟨l₀ ++ [⟨p.start, region.stop⟩], ⟨hm.managed.set _, hm.free.set _, ?_, ?_⟩, ?_, ?_, ?_⟩
    · show m.totalBytes + _ = _
      rw [hm.totalBytes, hgrow]
    · show m.freeBytes + _ = _
      rw [hm.freeBytes, hgrow]
    · have hpp := hl.pages p hp
      refine PageList.concat ⟨hsep, fun s hs => hl.pages s (List.mem_append_left _ hs)⟩
        (show p.start < region.stop by omega)
        ⟨hpp.start_aligned, hpage.stop_aligned, hpp.above_null, hpage.below_word⟩ ?_
      intro s hs
      exact hgap s hs p List.mem_cons_self
    · intro s hs
      rcases List.mem_append.mp hs with hs | hs
      · have := hbehind s (List.mem_append_left _ hs)
        omega
      · rw [List.mem_singleton.mp hs]
    · ext x
      simp only [cover_append, cover_cons, cover_nil, Set.union_empty, Set.mem_union,
        Span.mem_points, or_assoc]
      exact or_congr Iff.rfl (by omega)
  · rename_i htouch
    split at h
    · cases h
    · rename_i hcap
      have hle := hm.managed.le
      have hgap : ∀ s ∈ l, s.stop < region.start := by
        intro s hs
        have hsb := hbehind s hs
        -- only the last region can touch, and it does not
        obtain ⟨l₀, p, rfl⟩ : ∃ l₀ p, l = l₀ ++ [p] :=
          ⟨l.dropLast, l.getLast (List.ne_nil_of_mem hs),
            (List.dropLast_append_getLast _).symm⟩
        have hpb := hbehind p (List.mem_append_right _ List.mem_cons_self)
        have hlast : m.managed[l₀.length]! = p := hm.managed.getElem!
        rw [List.length_append, List.length_singleton] at hlen
        rw [show m.managedLen - 1 = l₀.length by omega, hlast] at htouch
        rcases List.mem_append.mp hs with hs | hs
        · have := (Separated.append_iff.mp hl.separated).2.2 s hs p List.mem_cons_self
          have := hl.separated.nonempty p (List.mem_append_right _ List.mem_cons_self)
          omega
        · rw [List.mem_singleton.mp hs]
          omega
      rw [countInitial_eq h]
      refine ⟨l ++ [region], ⟨hm.managed.push (by omega) _, hm.free.push (by omega) _, ?_, ?_⟩,
        hl.concat hne hpage hgap, ?_, by simp⟩
      · show m.totalBytes + _ = _
        rw [hm.totalBytes]
        simp [Span.length]
      · show m.freeBytes + _ = _
        rw [hm.freeBytes]
        simp [Span.length]
      · intro s hs
        rcases List.mem_append.mp hs with hs | hs
        · have := hbehind s hs
          omega
        · rw [List.mem_singleton.mp hs]

/-- The page at `a` lies above page zero and inside one of the regions. -/
def PageIn (regions : List Region) (a : Nat) : Prop :=
  pageSize ≤ a ∧ ∃ r ∈ regions, r.start ≤ a ∧ a + pageSize ≤ r.stop

theorem pageIn_cons {a : Nat} :
    PageIn (region :: regions) a ↔ PageIn [region] a ∨ PageIn regions a := by
  simp only [PageIn, List.mem_cons, List.not_mem_nil, or_false, exists_eq_or_imp,
    exists_eq_left, and_or_left]

/-- Rounding a region inwards keeps its pages. -/
theorem page_mem_rounded {a : Nat} (hword : region.stop < wordSize)
    (hup : alignUp (max region.start pageSize) pageSize = some start) (ha : pageSize ∣ a) :
    a ∈ (⟨start, alignDown region.stop pageSize⟩ : Span).points ↔ PageIn [region] a := by
  have hup' := alignUp_spec isPowerOfTwo_pageSize pageSize_le_wordSize hup
  have hleast := fun h => alignUp_le isPowerOfTwo_pageSize pageSize_le_wordSize hup (x := a) h ha
  have hdown : alignDown region.stop pageSize = region.stop / pageSize * pageSize := by
    rw [alignDown, show pageSize = 2 ^ 12 from rfl, maskDown_eq _ (by omega),
      Nat.mod_eq_of_lt hword]
  have hpage : a < region.stop / pageSize * pageSize ↔ a + pageSize ≤ region.stop := by
    obtain ⟨k, rfl⟩ := ha
    rw [← Nat.mul_succ, Nat.mul_comm pageSize, Nat.mul_comm pageSize,
      Nat.mul_lt_mul_right (by decide), ← Nat.le_div_iff_mul_le (by decide)]
    exact Nat.succ_le_iff.symm
  simp only [Span.mem_points, PageIn, List.mem_singleton, exists_eq_left, hdown, hpage]
  omega

/-- The loop of `new` keeps one page list managed and free, all of it below
the end of the last input region, and it collects the pages of the input. -/
theorem newLoop_shows (regions : List Region) : ∀ (m m' : PhysicalMemory N)
    (l : List Region) (previousEnd : Nat), m.Shows l l → PageList l →
    (∀ s ∈ l, s.stop ≤ previousEnd) → newLoop regions m previousEnd = .ok m' →
    ∃ l', m'.Shows l' l' ∧ PageList l' ∧ ((∀ r ∈ regions, r.stop < wordSize) →
      ∀ a, pageSize ∣ a → (a ∈ cover l' ↔ a ∈ cover l ∨ PageIn regions a)) := by
  induction regions with
  | nil =>
      intro m m' l previousEnd hm hl _ h
      simp only [newLoop, Except.ok.injEq] at h
      exact ⟨l, h ▸ hm, hl, by simp [PageIn]⟩
  | cons region regions ih =>
      intro m m' l previousEnd hm hl hend h
      unfold newLoop at h
      split at h
      · cases h
      split at h
      · cases h
      rename_i hrev hord
      cases hup : alignUp (max region.start pageSize) pageSize with
      | none => simp [hup] at h
      | some start =>
          simp only [hup] at h
          obtain ⟨hge, _, hsdvd, _⟩ := alignUp_spec isPowerOfTwo_pageSize pageSize_le_wordSize hup
          obtain ⟨hdle, hddvd, hdlt⟩ :=
            alignDown_spec isPowerOfTwo_pageSize pageSize_le_wordSize region.stop
          split at h
          · rename_i hempty
            obtain ⟨l', hm', hl', hpages⟩ := ih m m' l region.stop hm hl (fun s hs => by
              have := hend s hs
              omega) h
            refine ⟨l', hm', hl', fun hword a ha => ?_⟩
            have hnone : ¬ PageIn [region] a := by
              rw [← page_mem_rounded (hword region (by simp)) hup ha, Span.mem_points]
              dsimp only
              omega
            rw [hpages (fun r hr => hword r (List.mem_cons_of_mem _ hr)) a ha, pageIn_cons]
            simp [hnone]
          · rename_i hne
            cases hpush : m.pushInitial ⟨start, alignDown region.stop pageSize⟩ with
            | error e => simp [hpush] at h
            | ok m₁ =>
                simp only [hpush] at h
                have hbehind : ∀ s ∈ l, s.stop ≤ start := by
                  intro s hs
                  have := hend s hs
                  omega
                obtain ⟨l₁, hm₁, hl₁, hb₁, hcover⟩ := pushInitial_shows hm hl (by simpa using hne)
                  ⟨hsdvd, hddvd, by show pageSize ≤ start; omega, hdlt⟩ hbehind hpush
                obtain ⟨l', hm', hl', hpages⟩ := ih m₁ m' l₁ region.stop hm₁ hl₁
                  (fun s hs => le_trans (hb₁ s hs) hdle) h
                refine ⟨l', hm', hl', fun hword a ha => ?_⟩
                rw [hpages (fun r hr => hword r (List.mem_cons_of_mem _ hr)) a ha, hcover, pageIn_cons,
                  Set.mem_union, page_mem_rounded (hword region (by simp)) hup ha, or_assoc]

/-- An accepted map leaves one page list that is both managed and free. -/
theorem new_shows (h : new regions = .ok m) : ∃ l, m.Shows l l ∧ PageList l := by
  obtain ⟨l, hm, hl, _⟩ := newLoop_shows regions empty m [] 0 empty_shows PageList.nil (by simp) h
  exact ⟨l, hm, hl⟩

/-- The list holds the pages of the input regions. -/
theorem new_pages (h : new regions = .ok m) (hword : ∀ r ∈ regions, r.stop < wordSize) :
    ∃ l, m.Shows l l ∧ PageList l ∧
      ∀ a, pageSize ∣ a → (a ∈ cover l ↔ PageIn regions a) := by
  obtain ⟨l, hm, hl, hpages⟩ :=
    newLoop_shows regions empty m [] 0 empty_shows PageList.nil (by simp) h
  refine ⟨l, hm, hl, fun a ha => ?_⟩
  rw [hpages hword a ha, cover_nil]
  simp

/-! ## Allocation -/

/-- A fitting block lies inside its region at the first aligned address there. -/
theorem fit_spec {size alignment : Nat} (ha : isPowerOfTwo alignment = true)
    (hle : alignment ≤ wordSize) (h : fit size alignment region = some b) :
    region.start ≤ b.start ∧ b.stop = b.start + size ∧ b.stop ≤ region.stop ∧
      alignment ∣ b.start ∧ b.stop < wordSize ∧
      ∀ a, alignment ∣ a → region.start ≤ a → b.start ≤ a := by
  unfold fit at h
  cases hup : alignUp region.start alignment with
  | none => simp [hup] at h
  | some start =>
      cases hadd : checkedAdd start size with
      | none => simp [hup, hadd] at h
      | some stop =>
          simp only [hup, hadd] at h
          split at h
          · cases h
          · rename_i hstop
            obtain ⟨rfl, hlt⟩ := checkedAdd_eq_some.mp hadd
            obtain ⟨hge, _, hdvd, _⟩ := alignUp_spec ha hle hup
            obtain rfl := Option.some.inj h
            exact ⟨hge, rfl, Nat.le_of_not_lt hstop, hdvd, hlt,
              fun a hdvd hl => alignUp_le ha hle hup hl hdvd⟩

/-- The body of the allocation loop edits the table by `carveSlots`. -/
theorem allocateAt_eq (m : PhysicalMemory N) (index : Nat) (r b : Region) :
    m.allocateAt index r b.start b.stop =
      match carveSlots m.free m.freeLen index r b with
      | none => (.error .capacity, m)
      | some (free, freeLen) => (.ok (some b.start), { m with
          free := free, freeLen := freeLen, freeBytes := m.freeBytes - b.length }) := by
  unfold allocateAt carveSlots
  dsimp only
  by_cases hfront : r.start < b.start
  · by_cases hback : b.stop < r.stop
    · by_cases hfull : m.freeLen = N
      · simp only [hfront, hback, hfull, and_self, if_true, decide_true]
      · simp only [hfront, hback, hfull, and_false, if_false, decide_true, insertFree,
          setFreeStop]
        rfl
    · simp only [hfront, hback, false_and, and_false, if_false, decide_true, decide_false]
      rfl
  · by_cases hback : b.stop < r.stop
    · simp only [hfront, hback, false_and, if_false, decide_true, decide_false]
      rfl
    · simp only [hfront, hback, false_and, if_false, decide_false]
      rfl

/-- Splitting the free region `r` around a fitting block. Only a middle split
needs a free slot. -/
theorem allocateAt_shows {l₁ l₂ : List Region} {r b : Region} (hm : m.Shows ms (l₁ ++ r :: l₂))
    (hl : r.start ≤ b.start) (hr : b.stop ≤ r.stop) (hb : b.start < b.stop) :
    (r.start < b.start ∧ b.stop < r.stop ∧ m.freeLen = N ∧
      m.allocateAt l₁.length r b.start b.stop = (.error .capacity, m)) ∨
    (¬ (r.start < b.start ∧ b.stop < r.stop ∧ m.freeLen = N) ∧
      ∃ m', m.allocateAt l₁.length r b.start b.stop = (.ok (some b.start), m') ∧
        m'.Shows ms (l₁ ++ remainder r b ++ l₂)) := by
  have hbytes : m.freeBytes - b.length = totalLength (l₁ ++ remainder r b ++ l₂) := by
    rw [hm.freeBytes, (totalLength_carve hl hr (le_of_lt hb)).1]
  rw [allocateAt_eq]
  rcases hm.free.carveSlots_cases (r := r) (b := b) with
    ⟨hfront, hback, hfull, hnone⟩ | ⟨hroom, free', len', hsome, hfree'⟩
  · rw [hnone]
    exact .inl ⟨hfront, hback, hfull, rfl⟩
  · rw [hsome]
    exact .inr ⟨hroom, _, rfl, hm.managed, hfree', hm.totalBytes, hbytes⟩

/-- The loop stops at the first free region with a fitting block. -/
theorem allocateLoop_cases {size alignment : Nat} (l₂ : List Region) :
    ∀ l₁ : List Region, Holds m.free m.freeLen (l₁ ++ l₂) →
    (∀ s ∈ l₁, fit size alignment s = none) →
    ((∀ s ∈ l₁ ++ l₂, fit size alignment s = none) ∧
      m.allocateLoop size alignment (List.range' l₁.length l₂.length) = (.ok none, m)) ∨
    ∃ k₁ r k₂ b, l₁ ++ l₂ = k₁ ++ r :: k₂ ∧ (∀ s ∈ k₁, fit size alignment s = none) ∧
      fit size alignment r = some b ∧
      m.allocateLoop size alignment (List.range' l₁.length l₂.length) =
        m.allocateAt k₁.length r b.start b.stop := by
  induction l₂ with
  | nil =>
      intro l₁ _ hnone
      refine .inl ⟨by simpa using hnone, ?_⟩
      simp [allocateLoop]
  | cons r l₂ ih =>
      intro l₁ hfree hnone
      have hget : m.free[l₁.length]! = r := hfree.getElem!
      have hstep : m.allocateLoop size alignment (List.range' l₁.length (r :: l₂).length) =
          (fit size alignment r).elim
            (m.allocateLoop size alignment (List.range' (l₁.length + 1) l₂.length))
            (fun b => m.allocateAt l₁.length r b.start b.stop) := by
        rewrite [List.length_cons, List.range'_succ, allocateLoop, hget]
        cases fit size alignment r <;> rfl
      cases hfit : fit size alignment r with
      | some b =>
          refine .inr ⟨l₁, r, l₂, b, rfl, hnone, hfit, ?_⟩
          rw [hstep, hfit, Option.elim_some]
      | none =>
          rw [hstep, hfit, Option.elim_none]
          have hnone' : ∀ s ∈ l₁ ++ [r], fit size alignment s = none := by
            intro s hs
            rcases List.mem_append.mp hs with hs | hs
            · exact hnone s hs
            · rw [List.mem_singleton.mp hs]
              exact hfit
          have := ih (l₁ ++ [r]) (by rw [List.append_assoc]; exact hfree) hnone'
          simpa using this

/-- A well-formed request, as the two guards of `allocate_pages` check it. -/
def ValidRequest (pages alignPages : Nat) : Prop :=
  pages ≠ 0 ∧ isPowerOfTwo alignPages = true ∧ pages * pageSize < wordSize ∧
    alignPages * pageSize < wordSize

theorem isPowerOfTwo_mul_pageSize {n : Nat} (h : isPowerOfTwo n = true) :
    isPowerOfTwo (n * pageSize) = true := by
  obtain ⟨k, rfl⟩ := isPowerOfTwo_iff.mp h
  exact isPowerOfTwo_iff.mpr ⟨k + 12, by rw [Nat.pow_add]; rfl⟩

theorem ne_zero_of_isPowerOfTwo {n : Nat} (h : isPowerOfTwo n = true) : n ≠ 0 := by
  obtain ⟨k, rfl⟩ := isPowerOfTwo_iff.mp h
  exact (Nat.two_pow_pos k).ne'

theorem allocatePages_badRequest
    (h : pages = 0 ∨ alignPages = 0 ∨ isPowerOfTwo alignPages = false) :
    m.allocatePages pages alignPages = (.error .invalidRequest, m) := if_pos h

theorem allocatePages_overflow (hpages : pages ≠ 0) (hpow : isPowerOfTwo alignPages = true)
    (h : wordSize ≤ pages * pageSize ∨ wordSize ≤ alignPages * pageSize) :
    m.allocatePages pages alignPages = (.error .overflow, m) := by
  have hguard : ¬ (pages = 0 ∨ alignPages = 0 ∨ isPowerOfTwo alignPages = false) := by
    simp [hpages, hpow, ne_zero_of_isPowerOfTwo hpow]
  unfold allocatePages
  rw [if_neg hguard]
  cases hsize : checkedMul pages pageSize with
  | none => rfl
  | some size =>
      have hfits := (checkedMul_eq_some.mp hsize).2
      dsimp only
      rw [checkedMul_eq_none.mpr (h.resolve_left (Nat.not_le.mpr hfits))]

/-- An ill-formed request changes nothing. -/
theorem allocatePages_invalid (h : ¬ ValidRequest pages alignPages) :
    ∃ e, m.allocatePages pages alignPages = (.error e, m) := by
  by_cases hguard : pages = 0 ∨ alignPages = 0 ∨ isPowerOfTwo alignPages = false
  · exact ⟨_, allocatePages_badRequest hguard⟩
  · simp only [not_or, Bool.not_eq_false] at hguard
    refine ⟨_, allocatePages_overflow hguard.1 hguard.2.2 ?_⟩
    by_contra hfits
    simp only [not_or, not_le] at hfits
    exact h ⟨hguard.1, hguard.2.2, hfits⟩

/-- A well-formed request is the first-fit loop over the free list. -/
theorem allocatePages_valid (h : ValidRequest pages alignPages) :
    m.allocatePages pages alignPages =
      m.allocateLoop (pages * pageSize) (alignPages * pageSize) (List.range m.freeLen) := by
  obtain ⟨hpages, hpow, hsize, halign⟩ := h
  unfold allocatePages
  have hguard : ¬ (pages = 0 ∨ alignPages = 0 ∨ isPowerOfTwo alignPages = false) := by
    simp [hpages, hpow, ne_zero_of_isPowerOfTwo hpow]
  rw [if_neg hguard, checkedMul_eq_some.mpr ⟨rfl, hsize⟩]
  dsimp only
  rw [checkedMul_eq_some.mpr ⟨rfl, halign⟩]

/-- The block an allocation hands out, and the free list it leaves. -/
structure Carved (pages alignPages : Nat) (fs : List Region) (b : Span)
    (fs' : List Region) : Prop where
  valid : ValidRequest pages alignPages
  size : b.stop = b.start + pages * pageSize
  aligned : alignPages * pageSize ∣ b.start
  carve : ∃ l₁ r l₂, fs = l₁ ++ r :: l₂ ∧
    (∀ s ∈ l₁, fit (pages * pageSize) (alignPages * pageSize) s = none) ∧
    r.start ≤ b.start ∧ b.stop ≤ r.stop ∧ fs' = l₁ ++ remainder r b ++ l₂

/-- **Allocation**: no effect, or one block carved out of the free list. -/
theorem allocatePages_cases (hm : m.Shows ms fs) (pages alignPages : Nat) :
    (∃ e, m.allocatePages pages alignPages = (.error e, m)) ∨
    m.allocatePages pages alignPages = (.ok none, m) ∨
    ∃ b fs' m', m.allocatePages pages alignPages = (.ok (some b.start), m') ∧
      Carved pages alignPages fs b fs' ∧ m'.Shows ms fs' := by
  by_cases hvalid : ValidRequest pages alignPages
  · rw [allocatePages_valid hvalid]
    obtain ⟨hpages, hpow, hsize, halign⟩ := hvalid
    have hpow' := isPowerOfTwo_mul_pageSize hpow
    have hrange : List.range m.freeLen = List.range' ([] : List Region).length fs.length := by
      rw [hm.free.length, List.range_eq_range', List.length_nil]
    rw [hrange]
    rcases allocateLoop_cases fs [] hm.free (by simp) with ⟨_, hnone⟩ | ⟨l₁, r, l₂, b, hfs, hskip, hfit, hat⟩
    · exact .inr (.inl hnone)
    · rw [List.nil_append] at hfs
      obtain ⟨hl, hstop, hr, hdvd, _⟩ := fit_spec hpow' (le_of_lt halign) hfit
      have hb : b.start < b.stop := by
        have : 0 < pages * pageSize := Nat.mul_pos (Nat.pos_of_ne_zero hpages) (by decide)
        omega
      subst hfs
      rw [hat]
      rcases allocateAt_shows hm hl hr hb with ⟨_, _, _, hcap⟩ | ⟨_, m', hok, hm'⟩
      · exact .inl ⟨_, hcap⟩
      · exact .inr (.inr ⟨b, _, m', hok, ⟨⟨hpages, hpow, hsize, halign⟩, hstop, hdvd,
          l₁, r, l₂, rfl, hskip, hl, hr, rfl⟩, hm'⟩)
  · exact .inl (allocatePages_invalid hvalid)

/-! ## Freeing -/

/-- The match of `free_pages` edits the table by `coalesceSlots`. -/
theorem coalesceFree_eq (m : PhysicalMemory N) (index : Nat) (b : Region) :
    m.coalesceFree index b.start b.stop =
      match coalesceSlots m.free m.freeLen index b with
      | none => (.error .capacity, m)
      | some (free, freeLen) => (.ok (), { m with free := free, freeLen := freeLen }) := by
  unfold coalesceFree coalesceSlots
  dsimp only
  cases decide (0 < index ∧ m.free[index - 1]!.stop = b.start) with
  | true => cases decide (index < m.freeLen ∧ m.free[index]!.start = b.stop) <;> rfl
  | false =>
      cases decide (index < m.freeLen ∧ m.free[index]!.start = b.stop) with
      | true => rfl
      | false =>
          simp only [insertFree]
          split <;> rfl

/-- The block of `pages` pages at `start`. -/
def pageBlock (start pages : Nat) : Span := ⟨start, start + pages * pageSize⟩

/-- The argument checks of `free_pages`: a page block inside one managed
region. -/
structure ManagedBlock (ms : List Region) (start pages : Nat) : Prop where
  pages_ne : pages ≠ 0
  above_null : pageSize ≤ start
  aligned : pageSize ∣ start
  below_word : start + pages * pageSize < wordSize
  managed : ∃ r ∈ ms, r.start ≤ start ∧ start + pages * pageSize ≤ r.stop

theorem ManagedBlock.nonempty (h : ManagedBlock ms start pages) :
    (pageBlock start pages).start < (pageBlock start pages).stop := by
  have hpos : 0 < pages * pageSize := Nat.mul_pos (Nat.pos_of_ne_zero h.pages_ne) (by decide)
  show start < start + pages * pageSize
  omega

theorem isManaged_iff (hm : m.Shows ms fs) {stop : Nat} :
    m.isManaged start stop = true ↔ ∃ r ∈ ms, r.start ≤ start ∧ stop ≤ r.stop := by
  unfold isManaged
  rw [hm.managed.take, List.any_eq_true]
  simp only [Bool.and_eq_true, decide_eq_true_eq]

theorem freePages_badStart (h : pages = 0 ∨ start < pageSize ∨ ¬ pageSize ∣ start) :
    m.freePages start pages = (.error .invalidFree, m) := by
  refine if_pos (h.imp_right (Or.imp_right fun hdvd hmod => ?_))
  exact hdvd (Nat.dvd_of_mod_eq_zero hmod)

theorem freePages_overflow (hstart : ¬ (pages = 0 ∨ start < pageSize ∨ ¬ pageSize ∣ start))
    (h : wordSize ≤ start + pages * pageSize) :
    m.freePages start pages = (.error .overflow, m) := by
  simp only [not_or, not_not] at hstart
  unfold freePages
  rw [if_neg (by simp [hstart.1, hstart.2.1, Nat.mod_eq_zero_of_dvd hstart.2.2])]
  cases hsize : checkedMul pages pageSize with
  | none => rfl
  | some size =>
      obtain ⟨rfl, _⟩ := checkedMul_eq_some.mp hsize
      dsimp only
      rw [checkedAdd_eq_none.mpr h]

theorem freePages_unmanaged (hm : m.Shows ms fs)
    (hstart : ¬ (pages = 0 ∨ start < pageSize ∨ ¬ pageSize ∣ start))
    (hword : start + pages * pageSize < wordSize)
    (h : ¬ ∃ r ∈ ms, r.start ≤ start ∧ start + pages * pageSize ≤ r.stop) :
    m.freePages start pages = (.error .invalidFree, m) := by
  simp only [not_or, not_not] at hstart
  have hman : m.isManaged start (start + pages * pageSize) = false := by
    rw [Bool.eq_false_iff]
    exact fun hman => h ((isManaged_iff hm).mp hman)
  unfold freePages
  rw [if_neg (by simp [hstart.1, hstart.2.1, Nat.mod_eq_zero_of_dvd hstart.2.2]),
    checkedMul_eq_some.mpr ⟨rfl, by omega⟩]
  dsimp only
  rw [checkedAdd_eq_some.mpr ⟨rfl, hword⟩]
  dsimp only
  rw [if_pos (.inr hman)]

/-- Arguments outside `ManagedBlock` are rejected without effect. -/
theorem freePages_invalid (hm : m.Shows ms fs) (h : ¬ ManagedBlock ms start pages) :
    ∃ e, m.freePages start pages = (.error e, m) := by
  by_cases hstart : pages = 0 ∨ start < pageSize ∨ ¬ pageSize ∣ start
  · exact ⟨_, freePages_badStart hstart⟩
  by_cases hword : start + pages * pageSize < wordSize
  · refine ⟨_, freePages_unmanaged hm hstart hword fun hman => h ?_⟩
    simp only [not_or, not_not, not_lt] at hstart
    exact ⟨hstart.1, hstart.2.1, hstart.2.2, hword, hman⟩
  · exact ⟨_, freePages_overflow hstart (Nat.le_of_not_lt hword)⟩

/-- Arguments inside `ManagedBlock` reach `freeRange`. -/
theorem freePages_eq_freeRange (hm : m.Shows ms fs) (h : ManagedBlock ms start pages) :
    m.freePages start pages =
      m.freeRange start (start + pages * pageSize) (pages * pageSize) := by
  have hguard : ¬ (pages = 0 ∨ start < pageSize ∨ start % pageSize ≠ 0) := by
    have := h.pages_ne
    have := h.above_null
    have := Nat.mod_eq_zero_of_dvd h.aligned
    omega
  have hword := h.below_word
  have hstop : (start + pages * pageSize) % pageSize = 0 :=
    Nat.mod_eq_zero_of_dvd (Nat.dvd_add h.aligned (Nat.dvd_mul_left _ _))
  have hman : m.isManaged start (start + pages * pageSize) = true :=
    (isManaged_iff hm).mpr h.managed
  unfold freePages
  rw [if_neg hguard, checkedMul_eq_some.mpr ⟨rfl, by omega⟩]
  dsimp only
  rw [checkedAdd_eq_some.mpr ⟨rfl, hword⟩]
  dsimp only
  rw [if_neg (by simp [hstop, hman])]

/-- A block that meets a free region is rejected without effect. -/
theorem freeRange_overlap (hm : m.Shows ms fs) (hsep : Separated fs)
    (h : ¬ Disjoint (cover fs) b.points) :
    m.freeRange b.start b.stop b.length = (.error .invalidFree, m) := by
  obtain ⟨l₁, l₂, rfl, _, hseek⟩ := hm.free.seek b.start
  unfold freeRange
  rw [hseek]
  dsimp only
  have hover : OverlapsNeighbour m.free m.freeLen l₁.length b := by
    by_contra hno
    exact h ((hm.free.inGap_iff hsep).mpr hno).disjoint
  rcases hover with hleft | hright
  · rw [if_pos hleft]
  · split
    · rfl
    · rfl

/-- A managed block that meets no free region is coalesced into the free
list, unless it is isolated and the table is full. -/
theorem freeRange_cases (hm : m.Shows ms fs) (hms : PageList ms) (hsep : Separated fs)
    (hsub : cover fs ⊆ cover ms) (hb : b.start < b.stop) (hin : b.points ⊆ cover ms)
    (hdisj : Disjoint (cover fs) b.points) :
    (¬ (m.freeLen < N ∨ Touches fs b) ∧
      m.freeRange b.start b.stop b.length = (.error .capacity, m)) ∨
    ((m.freeLen < N ∨ Touches fs b) ∧
      ∃ fs' m', m.freeRange b.start b.stop b.length = (.ok (), m') ∧ m'.Shows ms fs' ∧
        Separated fs' ∧ cover fs' = cover fs ∪ b.points) := by
  obtain ⟨l₁, l₂, rfl, hsplit, hseek⟩ := hm.free.seek b.start
  have hgap := hsplit.inGap hsep hb hdisj
  have hchecks : ¬ OverlapsNeighbour m.free m.freeLen l₁.length b :=
    (hm.free.inGap_iff hsep).mp hgap
  have hleft : ¬ (0 < l₁.length ∧ b.start < m.free[l₁.length - 1]!.stop) :=
    fun h => hchecks (.inl h)
  have hright : ¬ (l₁.length < m.freeLen ∧ m.free[l₁.length]!.start < b.stop) :=
    fun h => hchecks (.inr h)
  unfold freeRange
  rw [hseek]
  dsimp only
  rw [if_neg hleft, if_neg hright]
  rw [coalesceFree_eq]
  rcases hm.free.coalesceSlots_cases hsep hb hgap.left hgap.right with
    ⟨hfull, hnone⟩ | ⟨hroom, free', len', hsome, hfree'⟩
  · rw [hnone]
    exact .inl ⟨hfull, rfl⟩
  · refine .inr ⟨hroom, giveBack l₁ l₂ b, ?_⟩
    obtain ⟨hsep', hcover'⟩ := hsep.giveBack hb hgap.left hgap.right
    -- the grown free set is still managed, so neither counter check fires
    have hbytes : m.freeBytes + b.length = totalLength (giveBack l₁ l₂ b) := by
      rw [hm.freeBytes, ← hsep.ncard_cover, ← hsep'.ncard_cover, hcover', ← b.ncard_points,
        Set.ncard_union_eq hdisj (Separated.finite_cover _) b.finite_points]
    have htotal : totalLength (giveBack l₁ l₂ b) ≤ totalLength ms := by
      rw [← hsep'.ncard_cover, ← hms.separated.ncard_cover, hcover']
      exact Set.ncard_le_ncard (Set.union_subset hsub hin) (Separated.finite_cover _)
    have hword := hms.totalLength_lt
    rw [hsome]
    dsimp only
    rw [checkedAdd_eq_some.mpr ⟨rfl, by omega⟩]
    dsimp only
    rw [if_neg (by rw [hm.totalBytes]; omega)]
    exact ⟨_, rfl, ⟨hm.managed, hfree', hm.totalBytes, hbytes⟩, hsep', hcover'⟩

/-- Both facts about the state that `free_pages` relies on: the managed list
is a page list and covers the free one. -/
structure Sound (ms fs : List Region) : Prop where
  managed : PageList ms
  free : PageList fs
  sub : cover fs ⊆ cover ms

theorem ManagedBlock.points_subset (h : ManagedBlock ms start pages) :
    (pageBlock start pages).points ⊆ cover ms := by
  obtain ⟨r, hr, hl, hu⟩ := h.managed
  intro x hx
  have hx' : start ≤ x ∧ x < start + pages * pageSize := hx
  exact ⟨r, hr, by omega, by omega⟩

theorem pageBlock_length (start pages : Nat) :
    (pageBlock start pages).length = pages * pageSize := by
  show start + pages * pageSize - start = pages * pageSize
  omega

/-- What becomes of a managed block. -/
theorem freePages_managed (hm : m.Shows ms fs) (hs : Sound ms fs)
    (hblock : ManagedBlock ms start pages) :
    (¬ Disjoint (cover fs) (pageBlock start pages).points ∧
      m.freePages start pages = (.error .invalidFree, m)) ∨
    (¬ (m.freeLen < N ∨ Touches fs (pageBlock start pages)) ∧
      m.freePages start pages = (.error .capacity, m)) ∨
    (Disjoint (cover fs) (pageBlock start pages).points ∧
      (m.freeLen < N ∨ Touches fs (pageBlock start pages)) ∧
      ∃ fs' m', m.freePages start pages = (.ok (), m') ∧ m'.Shows ms fs' ∧ Separated fs' ∧
        cover fs' = cover fs ∪ (pageBlock start pages).points) := by
  have hrange : m.freePages start pages = m.freeRange (pageBlock start pages).start
      (pageBlock start pages).stop (pageBlock start pages).length := by
    rw [pageBlock_length]
    exact freePages_eq_freeRange hm hblock
  rw [hrange]
  by_cases hdisj : Disjoint (cover fs) (pageBlock start pages).points
  · rcases freeRange_cases hm hs.managed hs.free.separated hs.sub hblock.nonempty
      hblock.points_subset hdisj with hcap | ⟨hroom, hok⟩
    · exact .inr (.inl hcap)
    · exact .inr (.inr ⟨hdisj, hroom, hok⟩)
  · exact .inl ⟨hdisj, freeRange_overlap hm hs.free.separated hdisj⟩

/-- **Freeing**: accepted, and then coalesced, exactly for a managed block
that meets no free page and finds a slot; otherwise without effect. -/
theorem freePages_cases (hm : m.Shows ms fs) (hs : Sound ms fs) (start pages : Nat) :
    (ManagedBlock ms start pages ∧ Disjoint (cover fs) (pageBlock start pages).points ∧
      (m.freeLen < N ∨ Touches fs (pageBlock start pages)) ∧
      ∃ fs' m', m.freePages start pages = (.ok (), m') ∧ m'.Shows ms fs' ∧ Separated fs' ∧
        cover fs' = cover fs ∪ (pageBlock start pages).points) ∨
    (¬ (ManagedBlock ms start pages ∧ Disjoint (cover fs) (pageBlock start pages).points ∧
      (m.freeLen < N ∨ Touches fs (pageBlock start pages))) ∧
      ∃ e, m.freePages start pages = (.error e, m)) := by
  by_cases hblock : ManagedBlock ms start pages
  · rcases freePages_managed hm hs hblock with ⟨hover, he⟩ | ⟨hfull, he⟩ | hok
    · exact .inr ⟨fun h => hover h.2.1, _, he⟩
    · exact .inr ⟨fun h => hfull h.2.2, _, he⟩
    · exact .inl ⟨hblock, hok⟩
  · exact .inr ⟨fun h => hblock h.1, freePages_invalid hm hblock⟩

end PhysicalMemory

end GenericKernel.Mm
