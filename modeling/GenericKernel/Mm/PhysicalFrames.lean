import GenericKernel.Mm.PhysicalLedger

/-!
# Single frames

`allocate_frame` takes the lowest free page: the pages of the free list, in
ascending order, are the frames that successive calls return. What a free list
of `N` slots can hold is counted in maximal intervals: giving a live frame back
succeeds exactly when the grown free set has at most `N` of them.
-/

namespace GenericKernel.Mm

open GenericKernel.Lib

/-- The pages of a region, ascending. -/
def regionPages (r : Region) : List Nat :=
  (List.range ((r.stop - r.start) / pageSize)).map fun k => r.start + k * pageSize

/-- The pages of a free list, ascending. -/
def freePageList (fs : List Region) : List Nat := fs.flatMap regionPages

namespace PhysicalMemory

variable {N : Nat}

theorem freePageList_cons (r : Region) (fs : List Region) :
    freePageList (r :: fs) = regionPages r ++ freePageList fs := rfl

/-- The first page of a region, and the pages of the rest. -/
theorem regionPages_eq_cons {r : Region} (hr : PageSpan r) (hne : r.start < r.stop) :
    r.start + pageSize ≤ r.stop ∧
      regionPages r = r.start :: freePageList (remainder r ⟨r.start, r.start + pageSize⟩) := by
  obtain ⟨a, ha⟩ := hr.start_aligned
  obtain ⟨b, hb⟩ := hr.stop_aligned
  have hlt : a < b := by
    by_contra hge
    have := Nat.mul_le_mul_left pageSize (Nat.le_of_not_lt hge)
    omega
  have hpages : ∀ c, c ≤ b → (pageSize * b - pageSize * c) / pageSize = b - c := by
    intro c _
    rw [← Nat.mul_sub, Nat.mul_div_cancel_left _ (by decide)]
  have hfit : r.start + pageSize ≤ r.stop := by
    have := Nat.mul_le_mul_left pageSize (Nat.succ_le_of_lt hlt)
    rw [Nat.mul_succ] at this
    omega
  refine ⟨hfit, ?_⟩
  have hsucc : (r.stop - r.start) / pageSize = (b - (a + 1)) + 1 := by
    rw [ha, hb, hpages a (le_of_lt hlt)]
    omega
  have hfirst : regionPages r = r.start :: (List.range (b - (a + 1))).map fun k =>
      r.start + pageSize + k * pageSize := by
    unfold regionPages
    rw [hsucc, List.range_succ_eq_map, List.map_cons, List.map_map, Nat.zero_mul, Nat.add_zero]
    congr 1
    refine List.map_congr_left fun k _ => ?_
    show r.start + (k + 1) * pageSize = _
    rw [Nat.succ_mul]
    omega
  rw [hfirst]
  congr 1
  simp only [remainder, lt_irrefl, if_false, List.nil_append]
  by_cases hback : r.start + pageSize < r.stop
  · rw [if_pos hback, freePageList_cons]
    have hrest : (r.stop - (r.start + pageSize)) / pageSize = b - (a + 1) := by
      rw [ha, hb, ← Nat.mul_succ, hpages (a + 1) hlt]
    unfold regionPages
    dsimp only
    rw [hrest]
    exact (List.append_nil _).symm
  · rw [if_neg hback]
    have hlast : b - (a + 1) = 0 := by
      by_contra hpos
      have := Nat.mul_le_mul_left pageSize (show a + 2 ≤ b by omega)
      rw [Nat.mul_add] at this
      have : pageSize = 4096 := rfl
      omega
    rw [hlast]
    rfl

theorem validRequest_frame : ValidRequest 1 1 := by
  refine ⟨by decide, by decide, ?_, ?_⟩
  · rw [Nat.one_mul, wordSize]
    decide
  · rw [Nat.one_mul, wordSize]
    decide

/-- An exhausted allocator has no frame. -/
theorem allocateFrame_nil {m : PhysicalMemory N} {ms : List Region} (hm : m.Shows ms []) :
    m.allocateFrame = (.ok none, m) := by
  unfold allocateFrame
  rw [allocatePages_valid validRequest_frame, hm.free.length]
  rfl

/-- The first page of the first region is the next frame. -/
theorem allocateFrame_cons {m : PhysicalMemory N} {ms fs : List Region} {r : Region}
    (hm : m.Shows ms (r :: fs)) (hr : PageSpan r) (hne : r.start < r.stop) :
    ∃ m', m.allocateFrame = (.ok (some r.start), m') ∧
      m'.Shows ms (remainder r ⟨r.start, r.start + pageSize⟩ ++ fs) := by
  obtain ⟨hfit, _⟩ := regionPages_eq_cons hr hne
  have hword := hr.below_word
  have hpos : 0 < pageSize := by decide
  have hget : m.free[0]! = r := by
    have hfree : Holds m.free m.freeLen ([] ++ r :: fs) := hm.free
    exact hfree.getElem!
  have hup : alignUp r.start pageSize = some r.start :=
    alignUp_of_dvd isPowerOfTwo_pageSize pageSize_le_wordSize hr.start_aligned (by omega)
  have hblock : fit pageSize pageSize r = some ⟨r.start, r.start + pageSize⟩ := by
    unfold fit
    rw [hup]
    dsimp only
    rw [checkedAdd_eq_some.mpr ⟨rfl, by omega⟩]
    dsimp only
    rw [if_neg (by omega)]
  unfold allocateFrame
  rw [allocatePages_valid validRequest_frame, hm.free.length, List.length_cons,
    List.range_succ_eq_map, allocateLoop, hget, Nat.one_mul, hblock]
  have hm' : m.Shows ms ([] ++ r :: fs) := hm
  rcases allocateAt_shows (b := ⟨r.start, r.start + pageSize⟩) hm' (le_refl _) hfit
    (by show r.start < r.start + pageSize; omega) with ⟨hfront, _⟩ | ⟨_, m', hok, hs⟩
  · exact absurd hfront (lt_irrefl _)
  · exact ⟨m', hok, hs⟩

/-- A live block goes back exactly when the grown free set has at most `N`
maximal intervals. -/
theorem freePages_live {m : PhysicalMemory N} {ms fs : List Region} {live : Finset Block}
    (hbal : Ledger.Balanced ms ⟨m, live⟩) (hm : m.Shows ms fs)
    (ht : Tiles Block.span (cover ms) live fs) {b : Block} (hb : b ∈ live) :
    ((leftEnds (cover fs ∪ b.span.points)).ncard ≤ N ∧
      ∃ m', m.freePages b.start b.pages = (.ok (), m') ∧
        Ledger.Balanced ms ⟨m', live.erase b⟩) ∨
    (¬ (leftEnds (cover fs ∪ b.span.points)).ncard ≤ N ∧
      ∃ e, m.freePages b.start b.pages = (.error e, m)) := by
  have hsound := hbal.sound ht
  have hdisj := ht.disjoint_free hb
  have hblock := hbal.blocks b hb
  rcases freePages_cases hm hsound b.start b.pages with
    ⟨_, _, _, fs', m', hok, hm', hsep', hcover'⟩ | ⟨hno, he⟩
  · refine .inl ⟨?_, m', hok, hbal.managed,
      fun a ha => hbal.blocks a (Finset.mem_of_mem_erase ha), fs', hm',
      ht.giveBack hb hsep' hcover'⟩
    have hcount := hsep'.ncard_leftEnds
    rw [hcover'] at hcount
    have := hm'.free.le
    show (leftEnds (cover fs ∪ (pageBlock b.start b.pages).points)).ncard ≤ N
    omega
  · refine .inr ⟨?_, he⟩
    have hfull : ¬ (m.freeLen < N ∨ Touches fs b.span) := fun hroom =>
      hno ⟨hblock, hdisj, hroom⟩
    rw [not_or] at hfull
    have hcount := ht.separated.ncard_leftEnds_isolated hblock.nonempty hdisj hfull.2
    have hlen := hm.free.length
    show ¬ (leftEnds (cover fs ∪ (pageBlock b.start b.pages).points)).ncard ≤ N
    omega

end PhysicalMemory

end GenericKernel.Mm
