import GenericKernel.Mm.HeapLedger

/-!
# The heap finds the lowest place

`allocate` looks at one candidate per free range, the first aligned address in it, and passes a
candidate over that does not fit or that would split the range while the table is full. An
address overflow ends the whole search. The ranges ascend and a word is a multiple of every
alignment, so nothing behind an overflow could have been taken.

* `HeapState.Candidate` — the place in a free range that a request may be given.
* `HeapState.allocateLoop_least` — the loop stops at the lowest candidate.
-/

namespace GenericKernel.Mm

open GenericKernel.Lib

/-- A word is a multiple of every alignment. -/
theorem Layout.align_dvd_word (layout : Layout) : layout.align ∣ wordSize := by
  obtain ⟨k, hk⟩ := isPowerOfTwo_iff.mp layout.align_pow
  have hle := layout.align_le
  rw [hk] at hle ⊢
  rw [wordSize]
  exact Nat.pow_dvd_pow 2 (exponent_le hle)

/-- A heap as the kernel can come to have it: before `init`, or after it and calls that
deallocate live blocks only. -/
inductive HeapState.Reachable : HeapState → Prop
  | empty : HeapState.Reachable HeapState.empty
  | ledger {start size : Nat} {h₀ : HeapState} {s : HeapLedger} :
      HeapState.empty.init start size = .ok h₀ → HeapLedger.Reachable h₀ s →
      HeapState.Reachable s.heap

namespace HeapState

/-- The request may be placed at `a` in the free range `r`: the first aligned address, with enough
room behind it, and no second slot needed while the table is full. -/
structure Candidate (h : HeapState) (layout : Layout) (r : Range) (a : Nat) : Prop where
  first : IsLeast {x | r.start ≤ x ∧ layout.align ∣ x} a
  fits : a + layout.bytes ≤ r.stop
  slot : ¬ (r.start < a ∧ a + layout.bytes < r.stop ∧ h.freeLen = maxFreeRanges)

/-- The addresses at which a request may be placed. -/
def candidates (h : HeapState) (layout : Layout) (rs : List Range) : Set Nat :=
  {a | ∃ r ∈ rs, h.Candidate layout r a}

variable {h : HeapState} {layout : Layout} {r : Range} {start : Nat}

theorem alignUp_isLeast (hup : alignUp r.start layout.align = some start) :
    IsLeast {x | r.start ≤ x ∧ layout.align ∣ x} start := by
  obtain ⟨hge, _, hdvd, _⟩ := alignUp_spec layout.align_pow layout.align_le hup
  exact ⟨⟨hge, hdvd⟩, fun x hx => alignUp_le layout.align_pow layout.align_le hup hx.1 hx.2⟩

/-- Behind an overflow of `align_up` there is no aligned word at all. -/
theorem no_aligned_above {a : Nat} (hup : alignUp r.start layout.align = none)
    (ha : r.start ≤ a) (hdvd : layout.align ∣ a) : wordSize ≤ a := by
  rw [alignUp_eq_none] at hup
  by_contra hlt
  have hgap : layout.align ∣ wordSize - a := Nat.dvd_sub layout.align_dvd_word hdvd
  have hle := Nat.le_of_dvd (by omega) hgap
  omega

/-- What the loop says about the ranges it has still to look at. -/
structure Finds (h : HeapState) (layout : Layout) (rs : List Range) (result : Option Nat) : Prop where
  empty : result = none → h.candidates layout rs = ∅
  least : ∀ a, result = some a → IsLeast (h.candidates layout rs) a

theorem Finds.nothing {rs : List Range} (hnone : ∀ r ∈ rs, ∀ a, ¬ h.Candidate layout r a) :
    Finds h layout rs none := by
  refine ⟨fun _ => Set.eq_empty_iff_forall_notMem.mpr ?_, fun a ha => nomatch ha⟩
  rintro a ⟨r, hr, ha⟩
  exact hnone r hr a ha

/-- A range without a candidate is passed over. -/
theorem Finds.skip {rs : List Range} {result : Option Nat} (hskip : ∀ a, ¬ h.Candidate layout r a)
    (hfinds : Finds h layout rs result) : Finds h layout (r :: rs) result := by
  have hsame : h.candidates layout (r :: rs) = h.candidates layout rs := by
    ext a
    constructor
    · rintro ⟨r', hr', ha⟩
      rcases List.mem_cons.mp hr' with rfl | hr'
      · exact absurd ha (hskip a)
      · exact ⟨r', hr', ha⟩
    · rintro ⟨r', hr', ha⟩
      exact ⟨r', List.mem_cons_of_mem _ hr', ha⟩
  exact ⟨fun hr => hsame.trans (hfinds.empty hr), fun a ha => by rw [hsame]; exact hfinds.least a ha⟩

/-- Later ranges start higher, so the first candidate is the lowest. -/
theorem Finds.here {rs : List Range} (hsep : Separated (r :: rs)) (hcand : h.Candidate layout r start) :
    Finds h layout (r :: rs) (some start) := by
  refine ⟨fun ha => (nomatch ha), fun a ha => ?_⟩
  obtain rfl := Option.some.inj ha
  refine ⟨⟨r, List.mem_cons_self, hcand⟩, ?_⟩
  rintro a' ⟨r', hr', ha'⟩
  rcases List.mem_cons.mp hr' with rfl | hr'
  · exact hcand.first.2 ha'.first.1
  · have hapart := (List.pairwise_cons.mp hsep.apart).1 r' hr'
    have hlow := ha'.first.1.1
    have hfits := hcand.fits
    omega

/-- **The loop** finds the lowest candidate of the ranges left, or there is none. -/
theorem allocateLoop_least {area : Range} (l₂ : List Range) :
    ∀ l₁ : List Range, h.Shows area (l₁ ++ l₂) → Separated l₂ → (∀ r ∈ l₂, r.stop < wordSize) →
      ∃ result h', h.allocateLoop layout.bytes layout.align (List.range' l₁.length l₂.length) =
        .ok (result, h') ∧ Finds h layout l₂ result := by
  induction l₂ with
  | nil =>
    intro l₁ _ _ _
    exact ⟨none, h, rfl, Finds.nothing fun _ hr => absurd hr List.not_mem_nil⟩
  | cons r l₂ ih =>
    intro l₁ hs hsep hword
    have hget : h.free[l₁.length]! = r := hs.free.getElem!
    obtain ⟨result, h', hnext, hfinds⟩ := ih (l₁ ++ [r]) (by rw [List.append_assoc]; exact hs)
      hsep.tail fun r' hr' => hword r' (List.mem_cons_of_mem _ hr')
    rw [List.length_append, List.length_singleton] at hnext
    -- the ranges ascend, so an aligned address in any of them is above this one's start
    have hascend : ∀ r' ∈ r :: l₂, r.start ≤ r'.start := by
      intro r' hr'
      rcases List.mem_cons.mp hr' with rfl | hr'
      · exact le_refl _
      · have hapart := (List.pairwise_cons.mp hsep.apart).1 r' hr'
        have hne := hsep.nonempty r List.mem_cons_self
        omega
    rw [List.length_cons, List.range'_succ]
    cases hup : alignUp r.start layout.align with
    | none =>
      refine ⟨none, h, ?_, Finds.nothing fun r' hr' a ha => ?_⟩
      · rw [allocateLoop, hget, hup]
      · have hhigh := no_aligned_above hup ((hascend r' hr').trans ha.first.1.1) ha.first.1.2
        have hlow := hword r' hr'
        have hfits := ha.fits
        omega
    | some start =>
      have hleast := alignUp_isLeast hup
      by_cases hsum : start + layout.bytes < wordSize
      · by_cases hpass : r.stop < start + layout.bytes ∨
            (r.start < start ∧ start + layout.bytes < r.stop ∧ h.freeLen = maxFreeRanges)
        · rw [allocateLoop_skip hget hup hsum hpass]
          refine ⟨result, h', hnext, hfinds.skip fun a ha => ?_⟩
          obtain rfl := ha.first.unique hleast
          rcases hpass with hbig | hfull
          · exact absurd ha.fits (Nat.not_le.mpr hbig)
          · exact ha.slot hfull
        · rw [not_or] at hpass
          have hfits : start + layout.bytes ≤ r.stop := Nat.le_of_not_lt hpass.1
          obtain ⟨h'', hok, _⟩ := allocateLoop_fit hs layout.bytes_pos hup hleast.1.1 hsum hfits hpass.2
            (List.range' (l₁.length + 1) l₂.length)
          exact ⟨some start, h'', hok, Finds.here hsep ⟨hleast, hfits, hpass.2⟩⟩
      · refine ⟨none, h, ?_, Finds.nothing fun r' hr' a ha => ?_⟩
        · rw [allocateLoop, hget, hup]
          dsimp only
          rw [checkedAdd_eq_none.mpr (Nat.le_of_not_lt hsum)]
        · have hge := hleast.2 ⟨(hascend r' hr').trans ha.first.1.1, ha.first.1.2⟩
          have hlow := hword r' hr'
          have hfits := ha.fits
          omega

/-- **The heap never misses a usable range**: `allocate` never panics, returns `None` exactly when
no free range has a candidate, and the lowest candidate otherwise. -/
theorem allocate_lowest {h : HeapState} (hreach : h.Reachable) (layout : Layout) :
    ∃ result h', h.allocate layout = .ok (result, h') ∧
      (result = none ↔ ∀ r ∈ h.freeRanges, ∀ a, ¬ h.Candidate layout r a) ∧
      ∀ a, result = some a ↔ IsLeast {a | ∃ r ∈ h.freeRanges, h.Candidate layout r a} a := by
  have hfinds : ∃ result h', h.allocate layout = .ok (result, h') ∧
      Finds h layout h.freeRanges result := by
    cases hreach with
    | empty => exact ⟨none, HeapState.empty, rfl, Finds.nothing fun _ hr => absurd hr List.not_mem_nil⟩
    | ledger hinit hs =>
      have hbal := hs.balanced hinit
      obtain ⟨fs, hshows, htiles⟩ := hbal.tiles
      rw [allocate_eq_loop hshows, show HeapState.freeRanges _ = fs from hshows.free.take]
      refine allocateLoop_least fs [] hshows htiles.separated fun r hr => ?_
      -- the last byte of a free range lies in the area
      have hne := htiles.separated.nonempty r hr
      have hlast : r.stop - 1 ∈ cover fs := ⟨r, hr, by omega, by omega⟩
      rw [htiles.cover] at hlast
      have hbelow := hlast.1.2
      have hword := hbal.below_word
      omega
  obtain ⟨result, h', hok, hfinds⟩ := hfinds
  refine ⟨result, h', hok, ⟨fun hnone r hr a ha => ?_, fun hnone => ?_⟩,
    fun a => ⟨hfinds.least a, fun hleast => ?_⟩⟩
  · have hmem : a ∈ h.candidates layout h.freeRanges := ⟨r, hr, ha⟩
    rw [hfinds.empty hnone] at hmem
    exact hmem
  · cases hresult : result with
    | none => rfl
    | some a =>
      obtain ⟨r, hr, ha⟩ := (hfinds.least a hresult).1
      exact absurd ha (hnone r hr a)
  · cases hresult : result with
    | none =>
      have hmem : a ∈ h.candidates layout h.freeRanges := hleast.1
      rw [hfinds.empty hresult] at hmem
      exact absurd hmem (Set.notMem_empty a)
    | some a' => rw [(hfinds.least a' hresult).unique hleast]

/-- A block in the middle of the heap leaves a free range on both sides of it, and a request that the
lower one cannot hold is given the start of the higher one. -/
theorem allocate_lowest_twoRanges : ∃ h : HeapState, h.Reachable ∧
    h.freeRanges = [⟨66, 72⟩, ⟨80, 96⟩] ∧
    ∃ h', h.allocate ⟨16, 4, by decide, by decide⟩ = .ok (some 80, h') := by
  obtain ⟨h₀, hinit⟩ := HeapState.exists_init (a := 66) (n := 30) (by decide)
    (lt_wordSize (by decide))
  have hshows : h₀.Shows ⟨66, 96⟩ ([] ++ ⟨66, 96⟩ :: []) := (HeapState.init_shows hinit).1
  have hup : alignUp 66 8 = some 72 := by decide +kernel
  obtain ⟨h₁, hmiddle, hshows₁⟩ := allocateLoop_fit hshows (show 0 < 8 by decide) hup (by decide)
    (lt_wordSize (by decide)) (by decide) (fun hfull => by
      rw [hshows.free.length] at hfull
      exact absurd hfull.2.2 (by decide)) []
  have hstep : ∀ layout : Layout, layout.bytes = 8 → layout.align = 8 →
      HeapLedger.perform ⟨h₀, ∅⟩ (.allocate layout) = .ok ⟨h₁, Insert.insert ⟨72, layout⟩ ∅⟩ := by
    intro layout hbytes halign
    have hok := allocate_eq_loop hshows layout
    rw [hbytes, halign] at hok
    simp only [HeapLedger.perform, hok.trans hmiddle]
  have hpermitted : HeapLedger.Permitted ⟨h₀, ∅⟩ (.allocate ⟨8, 8, by decide, by decide⟩) := trivial
  have hreach : h₁.Reachable := .ledger hinit (.step .init hpermitted (hstep _ rfl rfl))
  have hfree : h₁.freeRanges = [⟨66, 72⟩, ⟨80, 96⟩] := hshows₁.free.take
  obtain ⟨result, h', hok, -, hleast⟩ := allocate_lowest hreach ⟨16, 4, by decide, by decide⟩
  have hresult : result = some 80 := by
    refine (hleast 80).mpr ⟨⟨⟨80, 96⟩, by simp [hfree], ⟨⟨le_refl _, by decide⟩, fun x hx => hx.1⟩,
      by decide, fun hmid => absurd hmid.1 (by decide)⟩, ?_⟩
    rintro a ⟨r, hr, ha⟩
    rw [hfree] at hr
    rcases List.mem_cons.mp hr with rfl | hr
    · have hfits : a + 16 ≤ 72 := ha.fits
      have hstart : 66 ≤ a := ha.first.1.1
      omega
    · rw [List.mem_singleton.mp hr] at ha
      exact ha.first.1.1
  exact ⟨h₁, hreach, hfree, h', by rw [hok, hresult]⟩

end HeapState

end GenericKernel.Mm
