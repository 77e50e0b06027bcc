import GenericKernel.Lib.Spans

/-!
# Free lists against live blocks

`Tiles span area live free`: the area is divided into the spans of the live
blocks, which are disjoint, and a separated free list that covers the rest.

* `Tiles.carve` — a block taken out of a free span becomes live;
* `Tiles.giveBack` — a live block returned to the free list stops being so;
* `Tiles.unique` — the live blocks determine the free list;
* `Tiles.ncard_area` — free and live bytes add up to the area.
-/

namespace GenericKernel.Lib

variable {β : Type}

/-- The points of the live blocks. -/
def occupied (span : β → Span) (live : Finset β) : Set Nat :=
  {x | ∃ b ∈ live, x ∈ (span b).points}

theorem points_subset_occupied {span : β → Span} {live : Finset β} {b : β} (h : b ∈ live) :
    (span b).points ⊆ occupied span live := fun _ hx => ⟨b, h, hx⟩

@[simp] theorem occupied_empty (span : β → Span) : occupied span ∅ = ∅ := by
  ext x
  simp [occupied]

@[simp] theorem occupied_insert [DecidableEq β] (span : β → Span) (live : Finset β) (b : β) :
    occupied span (insert b live) = (span b).points ∪ occupied span live := by
  ext x
  simp [occupied]

theorem occupied_union [DecidableEq β] (span : β → Span) (live live' : Finset β) :
    occupied span (live ∪ live') = occupied span live ∪ occupied span live' := by
  ext x
  unfold occupied
  simp only [Finset.mem_union, Set.mem_union, Set.mem_ofPred_eq, or_and_right, exists_or]

/-- Live blocks are non-empty, disjoint and inside the area; the free list
covers the rest of it. -/
structure Tiles (span : β → Span) (area : Set Nat) (live : Finset β) (free : List Span) :
    Prop where
  nonempty : ∀ b ∈ live, (span b).start < (span b).stop
  inside : ∀ b ∈ live, (span b).points ⊆ area
  disjoint : ∀ a ∈ live, ∀ b ∈ live, a ≠ b → Disjoint (span a).points (span b).points
  separated : Separated free
  cover : cover free = area \ occupied span live

namespace Tiles

variable {span : β → Span} {area : Set Nat} {live : Finset β} {free : List Span}

theorem init (h : Separated free) : Tiles span (Lib.cover free) ∅ free :=
  ⟨by simp, by simp, by simp, h, by simp⟩

theorem cover_subset (h : Tiles span area live free) : Lib.cover free ⊆ area := by
  rw [h.cover]
  exact Set.sdiff_subset

/-- Free and live points are disjoint. -/
theorem disjoint_occupied (h : Tiles span area live free) :
    Disjoint (Lib.cover free) (occupied span live) := by
  rw [h.cover]
  exact Set.disjoint_sdiff_left

theorem disjoint_free (h : Tiles span area live free) {b : β} (hb : b ∈ live) :
    Disjoint (Lib.cover free) (span b).points :=
  h.disjoint_occupied.mono_right (points_subset_occupied hb)

/-- The free list is determined by the live blocks. -/
theorem unique {free' : List Span} (h : Tiles span area live free)
    (h' : Tiles span area live free') : free = free' :=
  h.separated.ext h'.separated (h.cover.trans h'.cover.symm)

/-- Members of the free list are the maximal intervals outside the live
blocks. -/
theorem mem_iff_maximal (h : Tiles span area live free) {s : Span} :
    s ∈ free ↔ s.Maximal (area \ occupied span live) := by
  rw [h.separated.mem_iff_maximal, h.cover]

/-- A block carved out of one free span is fresh, and becomes live. -/
theorem carve [DecidableEq β] {l₁ l₂ : List Span} {r : Span} {b : β}
    (h : Tiles span area live (l₁ ++ r :: l₂)) (hl : r.start ≤ (span b).start)
    (hr : (span b).stop ≤ r.stop) (hb : (span b).start < (span b).stop) :
    Tiles span area (insert b live) (l₁ ++ remainder r (span b) ++ l₂) := by
  have hfree : (span b).points ⊆ Lib.cover (l₁ ++ r :: l₂) := by
    intro x hx
    simp only [Span.mem_points] at hx
    exact ⟨r, List.mem_append_right _ List.mem_cons_self, by omega, by omega⟩
  have hfresh : ∀ a ∈ live, Disjoint (span a).points (span b).points := fun a ha =>
    ((h.disjoint_free ha).mono_left hfree).symm
  refine ⟨?_, ?_, ?_, h.separated.carve hl hr hb, ?_⟩
  · intro a ha
    rcases Finset.mem_insert.mp ha with rfl | ha
    · exact hb
    · exact h.nonempty a ha
  · intro a ha
    rcases Finset.mem_insert.mp ha with rfl | ha
    · exact hfree.trans h.cover_subset
    · exact h.inside a ha
  · intro a ha c hc hac
    rcases Finset.mem_insert.mp ha with hab | hlive
    · rw [hab]
      exact (hfresh c (Finset.mem_of_mem_insert_of_ne hc (hab ▸ hac.symm))).symm
    · rcases Finset.mem_insert.mp hc with hcb | hlive'
      · rw [hcb]
        exact hfresh a hlive
      · exact h.disjoint a hlive c hlive' hac
  · rw [cover_carve h.separated hl hr hb, h.cover, occupied_insert, Set.sdiff_sdiff,
      Set.union_comm]

/-- What is free once a live block has gone back. -/
theorem cover_union [DecidableEq β] {b : β} (h : Tiles span area live free) (hb : b ∈ live) :
    Lib.cover free ∪ (span b).points = area \ occupied span (live.erase b) := by
  have hrest : Disjoint (span b).points (occupied span (live.erase b)) := by
    refine Set.disjoint_right.mpr ?_
    intro x ⟨a, ha, hxa⟩
    exact Set.disjoint_left.mp (h.disjoint a (Finset.mem_of_mem_erase ha) b hb
      (Finset.ne_of_mem_erase ha)) hxa
  have hsplit : occupied span live = (span b).points ∪ occupied span (live.erase b) := by
    rw [← occupied_insert, Finset.insert_erase hb]
  rw [h.cover, hsplit]
  ext x
  have hx : x ∈ (span b).points → x ∉ occupied span (live.erase b) :=
    fun hx => Set.disjoint_left.mp hrest hx
  have hxin : x ∈ (span b).points → x ∈ area := fun hx => h.inside b hb hx
  simp only [Set.mem_union, Set.mem_sdiff, not_or]
  tauto

/-- A live block given back to the free list is no longer live. -/
theorem giveBack [DecidableEq β] {free' : List Span} {b : β} (h : Tiles span area live free)
    (hb : b ∈ live) (hsep : Separated free')
    (hcover : Lib.cover free' = Lib.cover free ∪ (span b).points) :
    Tiles span area (live.erase b) free' := by
  refine ⟨?_, ?_, ?_, hsep, hcover.trans (h.cover_union hb)⟩
  · intro a ha
    exact h.nonempty a (Finset.mem_of_mem_erase ha)
  · intro a ha
    exact h.inside a (Finset.mem_of_mem_erase ha)
  · intro a ha c hc hac
    exact h.disjoint a (Finset.mem_of_mem_erase ha) c (Finset.mem_of_mem_erase hc) hac

theorem finite_occupied [DecidableEq β] (span : β → Span) (live : Finset β) :
    (occupied span live).Finite := by
  induction live using Finset.induction_on with
  | empty => simp
  | insert b live _ ih =>
      rw [occupied_insert]
      exact (span b).finite_points.union ih

/-- Disjoint spans occupy the sum of their lengths. -/
theorem ncard_occupied [DecidableEq β] (h : ∀ a ∈ live, ∀ b ∈ live, a ≠ b →
    Disjoint (span a).points (span b).points) :
    (occupied span live).ncard = ∑ b ∈ live, (span b).length := by
  induction live using Finset.induction_on with
  | empty => simp
  | insert b live hb ih =>
      have hdisj : Disjoint (span b).points (occupied span live) := by
        refine Set.disjoint_right.mpr ?_
        intro x ⟨a, ha, hxa⟩
        have hne : a ≠ b := fun hab => hb (hab ▸ ha)
        exact Set.disjoint_left.mp (h a (Finset.mem_insert_of_mem ha) b
          (Finset.mem_insert_self b live) hne) hxa
      rw [occupied_insert, Set.ncard_union_eq hdisj (span b).finite_points
        (finite_occupied span live), (span b).ncard_points, Finset.sum_insert hb,
        ih fun a ha c hc => h a (Finset.mem_insert_of_mem ha) c (Finset.mem_insert_of_mem hc)]

/-- Free and live bytes add up to the area. -/
theorem ncard_area [DecidableEq β] (h : Tiles span area live free) :
    area.ncard = totalLength free + ∑ b ∈ live, (span b).length := by
  have harea : area = Lib.cover free ∪ occupied span live := by
    rw [h.cover, Set.sdiff_union_self, Set.union_eq_left.mpr]
    intro x ⟨b, hb, hx⟩
    exact h.inside b hb hx
  rw [harea, Set.ncard_union_eq h.disjoint_occupied (Separated.finite_cover _)
    (finite_occupied span live), h.separated.ncard_cover, ncard_occupied h.disjoint]

end Tiles

end GenericKernel.Lib
