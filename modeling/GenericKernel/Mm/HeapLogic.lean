import GenericKernel.Mm.Heap

/-!
# What each heap operation does

One specification per operation of `HeapState`, in terms of the list the
free-range table stands for (`Shows`):

* `init_shows` — an accepted area is one free range;
* `allocate_cases` — an allocation never panics; it finds nothing and changes
  nothing, or carves one aligned block out of one free range;
* `deallocate_cases` — a block inside the area and outside the free ranges is
  coalesced into them, unless it is isolated and every slot is taken.
-/

namespace GenericKernel.Mm

open GenericKernel.Lib

theorem Layout.bytes_pos (layout : Layout) : 0 < layout.bytes :=
  lt_of_lt_of_le Nat.one_pos (le_max_right _ _)

theorem Layout.align_le (layout : Layout) : layout.align ≤ wordSize := by
  have := layout.size_fits
  rw [wordSize]
  omega

variable {h : HeapState} {area r : Range} {fs : List Range} {start size alignment : Nat}

namespace HeapState

/-- `h` is an initialised heap over `area` whose table stands for `fs`. -/
structure Shows (h : HeapState) (area : Range) (fs : List Range) : Prop where
  initialized : h.initialized = true
  start : h.start = area.start
  stop : h.stop = area.stop
  free : Holds h.free h.freeLen fs
  freeBytes : h.freeBytes = totalLength fs

/-- The area and the free list determine the whole state. -/
theorem Shows.unique {h' : HeapState} (hs : h.Shows area fs) (hs' : h'.Shows area fs) : h = h' := by
  obtain ⟨h₁, h₂⟩ := hs.free.unique hs'.free
  exact HeapState.ext (hs.initialized.trans hs'.initialized.symm)
    (hs.start.trans hs'.start.symm) (hs.stop.trans hs'.stop.symm) h₁ h₂
    (hs.freeBytes.trans hs'.freeBytes.symm)

/-- An accepted area is non-empty, ends at a word and is one free range. -/
theorem init_shows (hinit : empty.init start size = .ok h) :
    h.Shows ⟨start, start + size⟩ [⟨start, start + size⟩] ∧ 0 < size ∧
      start + size < wordSize := by
  unfold init at hinit
  rw [if_neg (show ¬ empty.initialized = true by decide)] at hinit
  cases hadd : checkedAdd start size with
  | none => simp [hadd] at hinit
  | some stop =>
      obtain ⟨rfl, hlt⟩ := checkedAdd_eq_some.mp hadd
      simp only [hadd] at hinit
      split at hinit
      · cases hinit
      · rename_i hsize
        obtain rfl := Except.ok.inj hinit
        have hslots : Holds empty.free 0 [] := ⟨rfl, Vector.toList_replicate⟩
        refine ⟨⟨rfl, rfl, rfl, ?_, ?_⟩, Nat.pos_of_ne_zero hsize, hlt⟩
        · exact hslots.push (by decide) _
        · simp [Span.length]

/-- Every non-empty area that ends at a word is accepted. -/
theorem exists_init {a n : Nat} (hsize : 0 < n) (hword : a + n < wordSize) :
    ∃ h, empty.init a n = .ok h := by
  unfold init
  rw [if_neg (show ¬ empty.initialized = true by decide),
    checkedAdd_eq_some.mpr ⟨rfl, hword⟩]
  dsimp only
  rw [if_neg (Nat.pos_iff_ne_zero.mp hsize)]
  exact ⟨_, rfl⟩

/-! ## Allocation -/

theorem insertExpect_eq (h : HeapState) (index : Nat) (range : Range) :
    h.insertExpect index range =
      if h.freeLen = maxFreeRanges then .error .metadataExhausted
      else .ok { h with
        free := insertAt h.free h.freeLen index range
        freeLen := h.freeLen + 1 } := by
  unfold insertExpect insert
  by_cases hfull : h.freeLen = maxFreeRanges
  · rw [if_pos hfull, if_pos hfull]
  · rw [if_neg hfull, if_neg hfull]

/-- The split of `allocate` edits the table by `carveSlots`. -/
theorem split_eq (h : HeapState) (index : Nat) (r b : Range) :
    h.split index r b.start b.stop =
      match carveSlots h.free h.freeLen index r b with
      | none => .error .metadataExhausted
      | some (free, freeLen) => .ok { h with free := free, freeLen := freeLen } := by
  unfold split carveSlots
  cases decide (r.start < b.start) with
  | false => cases decide (b.stop < r.stop) <;> rfl
  | true =>
      cases decide (b.stop < r.stop) with
      | false => rfl
      | true =>
          refine (insertExpect_eq _ _ _).trans ?_
          show (if h.freeLen = maxFreeRanges then _ else _) = _
          dsimp only
          split <;> rfl

/-- The loop takes the first range that fits and needs no missing slot. -/
theorem allocateLoop_fit {l₁ l₂ : List Range} (hs : h.Shows area (l₁ ++ r :: l₂)) (hsize : 0 < size)
    (halign : alignUp r.start alignment = some start) (hstart : r.start ≤ start)
    (hword : start + size < wordSize) (hfit : start + size ≤ r.stop)
    (hroom : ¬ (r.start < start ∧ start + size < r.stop ∧ h.freeLen = maxFreeRanges))
    (rest : List Nat) :
    ∃ h', h.allocateLoop size alignment (l₁.length :: rest) = .ok (some start, h') ∧
      h'.Shows area (l₁ ++ remainder r ⟨start, start + size⟩ ++ l₂) := by
  have hget : h.free[l₁.length]! = r := hs.free.getElem!
  have hsplit := h.split_eq l₁.length r ⟨start, start + size⟩
  have hbytes : totalLength (l₁ ++ remainder r ⟨start, start + size⟩ ++ l₂) = _ :=
    (totalLength_carve hstart hfit (by show start ≤ start + size; omega)).1
  rcases hs.free.carveSlots_cases (r := r) (b := ⟨start, start + size⟩) with
    ⟨hfront, hback, hfull, _⟩ | ⟨_, free', len', hcarve, hfree'⟩
  · exact absurd ⟨hfront, hback, hfull⟩ hroom
  rw [hcarve] at hsplit
  unfold allocateLoop
  dsimp only at hsplit ⊢
  rw [hget, halign]
  dsimp only
  rw [checkedAdd_eq_some.mpr ⟨rfl, hword⟩]
  dsimp only
  rw [if_neg (by omega), if_neg hroom, hsplit]
  refine ⟨_, rfl, hs.initialized, hs.start, hs.stop, hfree', ?_⟩
  show h.freeBytes - size = _
  rw [hs.freeBytes, hbytes, Span.length, Nat.add_sub_cancel_left]

/-- A range that is too short, or would need a missing slot, is passed over. -/
theorem allocateLoop_skip {index : Nat} (hget : h.free[index]! = r)
    (halign : alignUp r.start alignment = some start) (hword : start + size < wordSize)
    (hpass : r.stop < start + size ∨
      (r.start < start ∧ start + size < r.stop ∧ h.freeLen = maxFreeRanges))
    (rest : List Nat) :
    h.allocateLoop size alignment (index :: rest) = h.allocateLoop size alignment rest := by
  rw [allocateLoop, hget, halign]
  dsimp only
  rw [checkedAdd_eq_some.mpr ⟨rfl, hword⟩]
  dsimp only
  rcases hpass with hbig | hfull
  · rw [if_pos hbig]
  · rw [if_neg (by omega), if_pos hfull]

/-- The block an allocation hands out, and the free list it leaves. -/
structure Carved (size alignment : Nat) (fs : List Range) (b : Range) (fs' : List Range) :
    Prop where
  size : b.stop = b.start + size
  aligned : alignment ∣ b.start
  carve : ∃ l₁ r l₂, fs = l₁ ++ r :: l₂ ∧ r.start ≤ b.start ∧ b.stop ≤ r.stop ∧
    fs' = l₁ ++ remainder r b ++ l₂

/-- The loop finds nothing or carves one block; it never panics. -/
theorem allocateLoop_cases (hpow : isPowerOfTwo alignment = true) (hle : alignment ≤ wordSize)
    (hsize : 0 < size) (l₂ : List Range) : ∀ l₁ : List Range, h.Shows area (l₁ ++ l₂) →
    h.allocateLoop size alignment (List.range' l₁.length l₂.length) = .ok (none, h) ∨
    ∃ b fs' h', h.allocateLoop size alignment (List.range' l₁.length l₂.length) =
        .ok (some b.start, h') ∧
      Carved size alignment (l₁ ++ l₂) b fs' ∧ h'.Shows area fs' := by
  induction l₂ with
  | nil =>
      intro l₁ _
      exact .inl rfl
  | cons r l₂ ih =>
      intro l₁ hs
      have hget : h.free[l₁.length]! = r := hs.free.getElem!
      have hnext := ih (l₁ ++ [r]) (by rw [List.append_assoc]; exact hs)
      simp only [List.length_append, List.length_singleton, List.append_assoc,
        List.singleton_append] at hnext
      rw [List.length_cons, List.range'_succ]
      cases hup : alignUp r.start alignment with
      | none =>
          refine .inl ?_
          unfold allocateLoop
          dsimp only
          rw [hget, hup]
      | some start =>
          obtain ⟨hge, _, hdvd, _⟩ := alignUp_spec hpow hle hup
          by_cases hword : start + size < wordSize
          · -- the range is passed over, or the block is taken
            by_cases htake : r.stop < start + size ∨
                (r.start < start ∧ start + size < r.stop ∧ h.freeLen = maxFreeRanges)
            · rw [allocateLoop_skip hget hup hword htake]
              exact hnext
            · rw [not_or] at htake
              obtain ⟨h', hok, hs'⟩ := allocateLoop_fit hs hsize hup hge hword (by omega)
                htake.2 (List.range' (l₁.length + 1) l₂.length)
              exact .inr ⟨⟨start, start + size⟩, _, h', hok,
                ⟨rfl, hdvd, l₁, r, l₂, rfl, hge, Nat.le_of_not_lt htake.1, rfl⟩, hs'⟩
          · refine .inl ?_
            unfold allocateLoop
            dsimp only
            rw [hget, hup]
            dsimp only
            rw [checkedAdd_eq_none.mpr (Nat.le_of_not_lt hword)]

theorem allocate_eq_loop (hs : h.Shows area fs) (layout : Layout) :
    h.allocate layout = h.allocateLoop layout.bytes layout.align (List.range' 0 fs.length) := by
  unfold allocate
  rw [if_neg (by rw [hs.initialized]; decide), hs.free.length, List.range_eq_range']

/-- **Allocation**: never a panic; no effect, or one block carved out. -/
theorem allocate_cases (hs : h.Shows area fs) (layout : Layout) :
    h.allocate layout = .ok (none, h) ∨
    ∃ b fs' h', h.allocate layout = .ok (some b.start, h') ∧
      Carved layout.bytes layout.align fs b fs' ∧ h'.Shows area fs' := by
  rw [allocate_eq_loop hs]
  exact allocateLoop_cases layout.align_pow layout.align_le layout.bytes_pos fs [] hs

/-- An aligned front range that is long enough serves the request. -/
theorem allocate_front (hs : h.Shows area (r :: fs)) {b : Layout} (hdvd : b.align ∣ r.start)
    (hup : r.start + (b.align - 1) < wordSize) (hword : r.start + b.bytes < wordSize)
    (hfit : r.start + b.bytes ≤ r.stop) :
    ∃ h', h.allocate b = .ok (some r.start, h') ∧
      h'.Shows area (remainder r ⟨r.start, r.start + b.bytes⟩ ++ fs) := by
  rw [allocate_eq_loop hs, List.length_cons, List.range'_succ]
  have hs' : h.Shows area ([] ++ r :: fs) := hs
  exact allocateLoop_fit hs' b.bytes_pos
    (alignUp_of_dvd b.align_pow b.align_le hdvd hup) (le_refl _) hword hfit
    (fun hmid => Nat.lt_irrefl _ hmid.1) _

/-! ## Deallocation -/

/-- The match of `deallocate` edits the table by `coalesceSlots`. -/
theorem coalesce_eq (h : HeapState) (index : Nat) (b : Range) :
    h.coalesce index b.start b.stop =
      match coalesceSlots h.free h.freeLen index b with
      | none => .error .metadataExhausted
      | some (free, freeLen) => .ok { h with free := free, freeLen := freeLen } := by
  unfold coalesce coalesceSlots
  dsimp only
  cases decide (0 < index ∧ h.free[index - 1]!.stop = b.start) with
  | true => cases decide (index < h.freeLen ∧ h.free[index]!.start = b.stop) <;> rfl
  | false =>
      cases decide (index < h.freeLen ∧ h.free[index]!.start = b.stop) with
      | true => rfl
      | false =>
          refine (insertExpect_eq _ _ _).trans ?_
          dsimp only
          split <;> rfl

/-- **Deallocation** of a block inside the area and outside the free ranges:
coalesced, or a panic exactly when it is isolated and every slot is taken. -/
theorem deallocate_cases (hs : h.Shows area fs) (harea : area.stop < wordSize) (hsep : Separated fs)
    (hsub : cover fs ⊆ area.points) {layout : Layout} {b : Range}
    (hb : b = ⟨start, start + layout.bytes⟩) (hin : b.points ⊆ area.points)
    (hdisj : Disjoint (cover fs) b.points) :
    (¬ (h.freeLen < maxFreeRanges ∨ Touches fs b) ∧
      h.deallocate start layout = .error .metadataExhausted) ∨
    ((h.freeLen < maxFreeRanges ∨ Touches fs b) ∧
      ∃ fs' h', h.deallocate start layout = .ok h' ∧ h'.Shows area fs' ∧ Separated fs' ∧
        cover fs' = cover fs ∪ b.points) := by
  subst hb
  have hpos := layout.bytes_pos
  have hne : start < start + layout.bytes := by omega
  have hfirst : start ∈ area.points := hin ⟨le_refl _, hne⟩
  have hlast : start + layout.bytes - 1 ∈ area.points :=
    hin ⟨by show start ≤ _; omega, by show _ < start + layout.bytes; omega⟩
  simp only [Span.mem_points] at hfirst hlast
  obtain ⟨l₁, l₂, rfl, hsplit, hseek⟩ := hs.free.seek start
  have hgap := hsplit.inGap (b := ⟨start, start + layout.bytes⟩) hsep hne hdisj
  have hchecks := (hs.free.inGap_iff hsep).mp hgap
  have hleft : ¬ (0 < l₁.length ∧ start < h.free[l₁.length - 1]!.stop) :=
    fun hc => hchecks (.inl hc)
  have hright : ¬ (l₁.length < h.freeLen ∧ h.free[l₁.length]!.start < start + layout.bytes) :=
    fun hc => hchecks (.inr hc)
  unfold deallocate giveBack
  rw [if_neg (by rw [hs.initialized]; decide), checkedAdd_eq_some.mpr ⟨rfl, by omega⟩]
  dsimp only
  rw [if_neg (by rw [hs.start, hs.stop]; omega), hseek, if_neg hleft, if_neg hright]
  have hedit := h.coalesce_eq l₁.length ⟨start, start + layout.bytes⟩
  rcases hs.free.coalesceSlots_cases hsep hne hgap.left hgap.right with
    ⟨hfull, hnone⟩ | ⟨hroom, free', len', hsome, hfree'⟩
  · rw [hnone] at hedit
    dsimp only at hedit
    rw [hedit]
    exact .inl ⟨hfull, rfl⟩
  · rw [hsome] at hedit
    dsimp only at hedit
    rw [hedit]
    refine .inr ⟨hroom, Lib.giveBack l₁ l₂ ⟨start, start + layout.bytes⟩, ?_⟩
    obtain ⟨hsep', hcover'⟩ := hsep.giveBack hne hgap.left hgap.right
    -- the grown free set is still inside the area, so neither counter check fires
    have hbytes : h.freeBytes + layout.bytes =
        totalLength (Lib.giveBack l₁ l₂ ⟨start, start + layout.bytes⟩) := by
      rw [hs.freeBytes, ← hsep.ncard_cover, ← hsep'.ncard_cover, hcover',
        Set.ncard_union_eq hdisj (Separated.finite_cover _) (Span.finite_points _),
        Span.ncard_points, Span.length, Nat.add_sub_cancel_left]
    have htotal : totalLength (Lib.giveBack l₁ l₂ ⟨start, start + layout.bytes⟩) ≤
        area.length := by
      rw [← hsep'.ncard_cover, ← area.ncard_points, hcover']
      exact Set.ncard_le_ncard (Set.union_subset hsub hin) area.finite_points
    rw [Span.length] at htotal
    dsimp only
    rw [checkedAdd_eq_some.mpr ⟨rfl, by omega⟩]
    dsimp only
    rw [if_neg (by rw [hs.start, hs.stop]; omega)]
    exact ⟨_, rfl, ⟨hs.initialized, hs.start, hs.stop, hfree', hbytes⟩, hsep', hcover'⟩

end HeapState

end GenericKernel.Mm
