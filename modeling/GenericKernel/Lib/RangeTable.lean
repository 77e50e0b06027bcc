import GenericKernel.Lib.Slots
import GenericKernel.Lib.Spans

/-!
# Range tables

A range table is a counted slot array that holds a separated span list: the
free list of an allocator without a heap. The array edits an allocator makes —
shrinking, dropping or splitting the entry it allocates from, growing, joining
or inserting entries when a block comes back — are shown to be `remainder` and
`giveBack` on the list.
-/

namespace GenericKernel.Lib

variable {n : Nat}

/-- `while index < len && slots[index].start < start { index += 1 }`, with
the number of slots left to look at. -/
def seekSlot (slots : Vector Span n) (len start : Nat) : Nat → Nat → Nat
  | 0, index => index
  | left + 1, index =>
      if index < len ∧ slots[index]!.start < start then
        seekSlot slots len start left (index + 1)
      else index

/-- The scan stops behind the entries that start below `start`. -/
theorem seekSlot_spec {slots : Vector Span n} {len start : Nat} (l₂ : List Span) :
    ∀ l₁ : List Span, Holds slots len (l₁ ++ l₂) → (∀ s ∈ l₁, s.start < start) →
    ∃ k₁ k₂, l₁ ++ l₂ = k₁ ++ k₂ ∧ (∀ s ∈ k₁, s.start < start) ∧
      (∀ s, k₂.head? = some s → start ≤ s.start) ∧
      seekSlot slots len start l₂.length l₁.length = k₁.length := by
  induction l₂ with
  | nil =>
      intro l₁ _ hlow
      exact ⟨l₁, [], rfl, hlow, by simp, rfl⟩
  | cons r l₂ ih =>
      intro l₁ h hlow
      have hget : slots[l₁.length]! = r := h.getElem!
      have hlt : l₁.length < len := by
        rw [h.length, List.length_append, List.length_cons]
        omega
      by_cases hr : r.start < start
      · have hlow' : ∀ s ∈ l₁ ++ [r], s.start < start := by
          intro s hs
          rcases List.mem_append.mp hs with hs | hs
          · exact hlow s hs
          · rw [List.mem_singleton.mp hs]
            exact hr
        obtain ⟨k₁, k₂, heq, h₁, h₂, hseek⟩ :=
          ih (l₁ ++ [r]) (by rw [List.append_assoc]; exact h) hlow'
        refine ⟨k₁, k₂, by rw [← heq, List.append_assoc]; rfl, h₁, h₂, ?_⟩
        rw [List.length_append, List.length_singleton] at hseek
        rw [List.length_cons, seekSlot, hget, if_pos ⟨hlt, hr⟩, hseek]
      · refine ⟨l₁, r :: l₂, rfl, hlow, ?_, ?_⟩
        · intro s hs
          simp only [List.head?_cons, Option.some.injEq] at hs
          rw [← hs]
          omega
        · rw [List.length_cons, seekSlot, hget, if_neg (fun h => hr h.2)]

/-! ## Carving a block out of one entry -/

namespace Holds

section Carve

variable {slots : Vector Span n} {len : Nat} {l₁ l₂ : List Span} {r b : Span}

variable (h : Holds slots len (l₁ ++ r :: l₂))
include h

theorem carve_whole (hf : ¬ r.start < b.start) (hb : ¬ b.stop < r.stop) :
    Holds (Lib.removeAt slots len l₁.length) (len - 1) (l₁ ++ remainder r b ++ l₂) := by
  simpa [remainder, hf, hb] using h.removeAt

theorem carve_front (hf : ¬ r.start < b.start) (hb : b.stop < r.stop) :
    Holds (slots.setIfInBounds l₁.length { slots[l₁.length]! with start := b.stop }) len
      (l₁ ++ remainder r b ++ l₂) := by
  rw [h.getElem!]
  simpa [remainder, hf, hb] using h.set ⟨b.stop, r.stop⟩

theorem carve_back (hf : r.start < b.start) (hb : ¬ b.stop < r.stop) :
    Holds (slots.setIfInBounds l₁.length { slots[l₁.length]! with stop := b.start }) len
      (l₁ ++ remainder r b ++ l₂) := by
  rw [h.getElem!]
  simpa [remainder, hf, hb] using h.set ⟨r.start, b.start⟩

theorem carve_middle (hlt : len < n) (hf : r.start < b.start) (hb : b.stop < r.stop) :
    Holds (Lib.insertAt
        (slots.setIfInBounds l₁.length { slots[l₁.length]! with stop := b.start })
        len (l₁.length + 1) ⟨b.stop, r.stop⟩) (len + 1) (l₁ ++ remainder r b ++ l₂) := by
  have hset := h.set ⟨r.start, b.start⟩
  rw [List.append_cons] at hset
  rw [h.getElem!]
  simpa [remainder, hf, hb] using hset.insertAt hlt ⟨b.stop, r.stop⟩

end Carve

end Holds

/-- Take `b` out of the entry `r` at `index`. Only a middle split needs a
free slot. -/
def carveSlots (slots : Vector Span n) (len index : Nat) (r b : Span) :
    Option (Vector Span n × Nat) :=
  match decide (r.start < b.start), decide (b.stop < r.stop) with
  | false, false => some (removeAt slots len index, len - 1)
  | false, true => some (slots.setIfInBounds index { slots[index]! with start := b.stop }, len)
  | true, false => some (slots.setIfInBounds index { slots[index]! with stop := b.start }, len)
  | true, true =>
      if len = n then none
      else
        some (insertAt (slots.setIfInBounds index { slots[index]! with stop := b.start }) len
          (index + 1) ⟨b.stop, r.stop⟩, len + 1)

/-- `carveSlots` replaces the entry by its remainder. -/
theorem Holds.carveSlots_cases {slots : Vector Span n} {len : Nat} {l₁ l₂ : List Span}
    {r b : Span} (h : Holds slots len (l₁ ++ r :: l₂)) :
    (r.start < b.start ∧ b.stop < r.stop ∧ len = n ∧
      carveSlots slots len l₁.length r b = none) ∨
    (¬ (r.start < b.start ∧ b.stop < r.stop ∧ len = n) ∧
      ∃ slots' len', carveSlots slots len l₁.length r b = some (slots', len') ∧
        Holds slots' len' (l₁ ++ remainder r b ++ l₂)) := by
  unfold carveSlots
  by_cases hfront : r.start < b.start
  · by_cases hback : b.stop < r.stop
    · simp only [hfront, hback, decide_true, true_and]
      by_cases hfull : len = n
      · rw [if_pos hfull]
        exact .inl ⟨hfull, rfl⟩
      · rw [if_neg hfull]
        have hlt : len < n := by
          have := h.le
          have := h.length
          omega
        exact .inr ⟨hfull, _, _, rfl, h.carve_middle hlt hfront hback⟩
    · simp only [hfront, hback, decide_true, decide_false]
      exact .inr ⟨fun hmid => hmid.2.1, _, _, rfl, h.carve_back hfront hback⟩
  · refine .inr ⟨fun hmid => hfront hmid.1, ?_⟩
    by_cases hback : b.stop < r.stop
    · simp only [hfront, hback, decide_true, decide_false]
      exact ⟨_, _, rfl, h.carve_front hfront hback⟩
    · simp only [hfront, hback, decide_false]
      exact ⟨_, _, rfl, h.carve_whole hfront hback⟩

theorem totalLength_remainder {r b : Span} (hl : r.start ≤ b.start) (hr : b.stop ≤ r.stop)
    (hb : b.start ≤ b.stop) : totalLength (remainder r b) = r.length - b.length := by
  unfold remainder
  split <;> split <;>
    simp only [totalLength_append, totalLength_cons, totalLength_nil, Span.length] <;> omega

/-- Carving removes the block's bytes from the total. -/
theorem totalLength_carve {l₁ l₂ : List Span} {r b : Span} (hl : r.start ≤ b.start)
    (hr : b.stop ≤ r.stop) (hb : b.start ≤ b.stop) :
    totalLength (l₁ ++ remainder r b ++ l₂) = totalLength (l₁ ++ r :: l₂) - b.length ∧
      b.length ≤ totalLength (l₁ ++ r :: l₂) := by
  simp only [totalLength_append, totalLength_cons, totalLength_remainder hl hr hb, Span.length]
  omega

/-! ## Giving a block back between two entries -/

/-- Some entry ends where `b` starts or starts where `b` ends. -/
def Touches (l : List Span) (b : Span) : Prop :=
  ∃ s ∈ l, s.stop = b.start ∨ s.start = b.stop

section GiveBack

variable {slots : Vector Span n} {len : Nat} {l₁ l₂ : List Span} {b : Span}

/-- The entry below `index` ends at the block. -/
def MergeLeft (slots : Vector Span n) (index : Nat) (b : Span) : Prop :=
  0 < index ∧ slots[index - 1]!.stop = b.start

/-- The entry at `index` starts at the block's end. -/
def MergeRight (slots : Vector Span n) (len index : Nat) (b : Span) : Prop :=
  index < len ∧ slots[index]!.start = b.stop

variable (h : Holds slots len (l₁ ++ l₂))
include h

theorem mergeLeft_iff :
    MergeLeft slots l₁.length b ↔ ∃ k p, l₁ = k ++ [p] ∧ p.stop = b.start := by
  rcases List.eq_nil_or_concat' l₁ with rfl | ⟨k, p, rfl⟩
  · simp [MergeLeft]
  · rw [List.append_assoc, List.singleton_append] at h
    have hget : slots[k.length]! = p := h.getElem!
    simp only [MergeLeft, List.length_append, List.length_singleton, Nat.add_sub_cancel, hget]
    constructor
    · intro hm
      exact ⟨k, p, rfl, hm.2⟩
    · intro ⟨k', p', heq, hp⟩
      obtain ⟨_, hpp⟩ := List.append_inj' heq rfl
      rw [List.singleton_inj.mp hpp]
      exact ⟨by omega, hp⟩

theorem mergeRight_iff :
    MergeRight slots len l₁.length b ↔ ∃ q k, l₂ = q :: k ∧ q.start = b.stop := by
  have hlen := h.length
  rw [List.length_append] at hlen
  cases l₂ with
  | nil =>
      simp only [List.length_nil] at hlen
      simp only [MergeRight, List.nil_eq, reduceCtorEq, false_and, exists_false, iff_false]
      omega
  | cons q k =>
      have hget : slots[l₁.length]! = q := h.getElem!
      simp only [List.length_cons] at hlen
      simp only [MergeRight, hget, List.cons.injEq]
      constructor
      · intro hm
        exact ⟨q, k, ⟨rfl, rfl⟩, hm.2⟩
      · intro ⟨q', k', ⟨hq, _⟩, hm⟩
        exact ⟨by omega, hq ▸ hm⟩

/-- A block between the entries touches one of them exactly when it merges
with a neighbour. -/
theorem touches_iff (hsep : Separated (l₁ ++ l₂)) (hb : b.start < b.stop)
    (h₁ : ∀ s ∈ l₁, s.stop ≤ b.start) (h₂ : ∀ s ∈ l₂, b.stop ≤ s.start) :
    Touches (l₁ ++ l₂) b ↔ MergeLeft slots l₁.length b ∨ MergeRight slots len l₁.length b := by
  rw [mergeLeft_iff h, mergeRight_iff h]
  obtain ⟨hs₁, hs₂, _⟩ := Separated.append_iff.mp hsep
  constructor
  · intro ⟨s, hs, hst⟩
    have hsne := hsep.nonempty s hs
    rcases List.mem_append.mp hs with hs | hs
    · -- a touching entry on the left ends at `b`, so nothing fits behind it
      have hle := h₁ s hs
      left
      obtain ⟨k, p, rfl⟩ : ∃ k p, l₁ = k ++ [p] :=
        ⟨l₁.dropLast, l₁.getLast (List.ne_nil_of_mem hs),
          (List.dropLast_append_getLast _).symm⟩
      refine ⟨k, p, rfl, ?_⟩
      have hp : p ∈ k ++ [p] := List.mem_append_right _ List.mem_cons_self
      have hple := h₁ p hp
      have hpne := hs₁.nonempty p hp
      rcases List.mem_append.mp hs with hs | hs
      · have := (Separated.append_iff.mp hs₁).2.2 s hs p List.mem_cons_self
        omega
      · rw [List.mem_singleton.mp hs] at hst hsne
        omega
    · have hle := h₂ s hs
      right
      cases l₂ with
      | nil => exact absurd hs List.not_mem_nil
      | cons q k =>
          refine ⟨q, k, rfl, ?_⟩
          have hqle := h₂ q List.mem_cons_self
          have hqne := hs₂.nonempty q List.mem_cons_self
          rcases List.mem_cons.mp hs with hs | hs
          · subst hs
            omega
          · have := (Separated.cons_iff.mp hs₂).2.2 s hs
            omega
  · intro hm
    rcases hm with ⟨k, p, rfl, hp⟩ | ⟨q, k, rfl, hq⟩
    · exact ⟨p, by simp, .inl hp⟩
    · exact ⟨q, by simp, .inr hq⟩

theorem Holds.coalesce_both
    (hL : MergeLeft slots l₁.length b) (hR : MergeRight slots len l₁.length b) :
    Holds (Lib.removeAt (slots.setIfInBounds (l₁.length - 1)
        { slots[l₁.length - 1]! with stop := slots[l₁.length]!.stop }) len l₁.length) (len - 1)
      (giveBack l₁ l₂ b) := by
  obtain ⟨k, p, rfl, hp⟩ := (mergeLeft_iff h).mp hL
  obtain ⟨q, k', rfl, hq⟩ := (mergeRight_iff h).mp hR
  have hgetq : slots[(k ++ [p]).length]! = q := h.getElem!
  rw [List.append_assoc, List.singleton_append] at h
  have hgetp : slots[k.length]! = p := h.getElem!
  have hset := h.set ⟨p.start, q.stop⟩
  rw [List.append_cons] at hset
  have hlen : (k ++ [p]).length - 1 = k.length := by simp
  rw [hgetq, hlen, hgetp]
  have := hset.removeAt
  simpa [giveBack, joinRight, hp, hq] using this

theorem Holds.coalesce_left
    (hL : MergeLeft slots l₁.length b) (hR : ¬ MergeRight slots len l₁.length b) :
    Holds (slots.setIfInBounds (l₁.length - 1)
        { slots[l₁.length - 1]! with stop := b.stop }) len (giveBack l₁ l₂ b) := by
  rw [mergeRight_iff h] at hR
  obtain ⟨k, p, rfl, hp⟩ := (mergeLeft_iff h).mp hL
  rw [List.append_assoc, List.singleton_append] at h
  have hgetp : slots[k.length]! = p := h.getElem!
  have hlen : (k ++ [p]).length - 1 = k.length := by simp
  rw [hlen, hgetp]
  have := h.set ⟨p.start, b.stop⟩
  cases l₂ with
  | nil => simpa [giveBack, joinRight, hp] using this
  | cons q k' =>
      have hq : q.start ≠ b.stop := fun hq => hR ⟨q, k', rfl, hq⟩
      simpa [giveBack, joinRight, hp, hq] using this

theorem giveBack_of_not_mergeLeft
    (hL : ¬ MergeLeft slots l₁.length b) : giveBack l₁ l₂ b = l₁ ++ joinRight b l₂ := by
  rw [mergeLeft_iff h] at hL
  rcases List.eq_nil_or_concat' l₁ with rfl | ⟨k, p, rfl⟩
  · rfl
  · have hp : p.stop ≠ b.start := fun hp => hL ⟨k, p, rfl, hp⟩
    simp [giveBack, hp]

theorem Holds.coalesce_right
    (hL : ¬ MergeLeft slots l₁.length b) (hR : MergeRight slots len l₁.length b) :
    Holds (slots.setIfInBounds l₁.length { slots[l₁.length]! with start := b.start }) len
      (giveBack l₁ l₂ b) := by
  rw [giveBack_of_not_mergeLeft h hL]
  obtain ⟨q, k, rfl, hq⟩ := (mergeRight_iff h).mp hR
  rw [h.getElem!]
  simpa [joinRight, hq] using h.set ⟨b.start, q.stop⟩

theorem Holds.coalesce_none (hlt : len < n)
    (hL : ¬ MergeLeft slots l₁.length b) (hR : ¬ MergeRight slots len l₁.length b) :
    Holds (Lib.insertAt slots len l₁.length b) (len + 1) (giveBack l₁ l₂ b) := by
  rw [giveBack_of_not_mergeLeft h hL]
  rw [mergeRight_iff h] at hR
  have := h.insertAt hlt b
  cases l₂ with
  | nil => simpa [joinRight] using this
  | cons q k =>
      have hq : q.start ≠ b.stop := fun hq => hR ⟨q, k, rfl, hq⟩
      simpa [joinRight, hq] using this

/-- Put `b` back in front of the entry at `index`, joined to the neighbours it
touches. Only an isolated block needs a free slot. -/
def coalesceSlots (slots : Vector Span n) (len index : Nat) (b : Span) :
    Option (Vector Span n × Nat) :=
  let mergeLeft := 0 < index ∧ slots[index - 1]!.stop = b.start
  let mergeRight := index < len ∧ slots[index]!.start = b.stop
  match decide mergeLeft, decide mergeRight with
  | true, true =>
      some (removeAt (slots.setIfInBounds (index - 1)
        { slots[index - 1]! with stop := slots[index]!.stop }) len index, len - 1)
  | true, false =>
      some (slots.setIfInBounds (index - 1) { slots[index - 1]! with stop := b.stop }, len)
  | false, true =>
      some (slots.setIfInBounds index { slots[index]! with start := b.start }, len)
  | false, false => if len = n then none else some (insertAt slots len index b, len + 1)

/-- `coalesceSlots` is `giveBack`, unless the block is isolated and every slot
is taken. -/
theorem Holds.coalesceSlots_cases (hsep : Separated (l₁ ++ l₂)) (hb : b.start < b.stop)
    (h₁ : ∀ s ∈ l₁, s.stop ≤ b.start) (h₂ : ∀ s ∈ l₂, b.stop ≤ s.start) :
    (¬ (len < n ∨ Touches (l₁ ++ l₂) b) ∧ coalesceSlots slots len l₁.length b = none) ∨
    ((len < n ∨ Touches (l₁ ++ l₂) b) ∧
      ∃ slots' len', coalesceSlots slots len l₁.length b = some (slots', len') ∧
        Holds slots' len' (giveBack l₁ l₂ b)) := by
  have htouch := touches_iff h hsep hb h₁ h₂
  have hleft : (0 < l₁.length ∧ slots[l₁.length - 1]!.stop = b.start) =
      MergeLeft slots l₁.length b := rfl
  have hright : (l₁.length < len ∧ slots[l₁.length]!.start = b.stop) =
      MergeRight slots len l₁.length b := rfl
  unfold coalesceSlots
  by_cases hL : MergeLeft slots l₁.length b
  · refine .inr ⟨.inr (htouch.mpr (.inl hL)), ?_⟩
    by_cases hR : MergeRight slots len l₁.length b
    · simp only [hleft, hright, hL, hR, decide_true]
      exact ⟨_, _, rfl, h.coalesce_both hL hR⟩
    · simp only [hleft, hright, hL, hR, decide_true, decide_false]
      exact ⟨_, _, rfl, h.coalesce_left hL hR⟩
  · by_cases hR : MergeRight slots len l₁.length b
    · simp only [hleft, hright, hL, hR, decide_true, decide_false]
      exact .inr ⟨.inr (htouch.mpr (.inr hR)), _, _, rfl, h.coalesce_right hL hR⟩
    · have hiso : ¬ Touches (l₁ ++ l₂) b := fun ht => (htouch.mp ht).elim hL hR
      simp only [hleft, hright, hL, hR, decide_false]
      have := h.le
      have := h.length
      by_cases hfull : len = n
      · rw [if_pos hfull]
        exact .inl ⟨fun hroom => hroom.elim (by omega) hiso, rfl⟩
      · rw [if_neg hfull]
        exact .inr ⟨.inl (by omega), _, _, rfl, h.coalesce_none (by omega) hL hR⟩

end GiveBack

/-! ## Where a block falls between the entries -/

/-- The entries split into those that start below `start` and the rest. -/
structure SplitAt (start : Nat) (l₁ l₂ : List Span) : Prop where
  low : ∀ s ∈ l₁, s.start < start
  high : ∀ s, l₂.head? = some s → start ≤ s.start

/-- The scan over all entries finds the split. -/
theorem Holds.seek {slots : Vector Span n} {len : Nat} {l : List Span} (h : Holds slots len l)
    (start : Nat) :
    ∃ l₁ l₂, l = l₁ ++ l₂ ∧ SplitAt start l₁ l₂ ∧
      seekSlot slots len start len 0 = l₁.length := by
  obtain ⟨l₁, l₂, heq, hlow, hhigh, hseek⟩ := seekSlot_spec l [] h (by simp)
  rw [← h.length] at hseek
  exact ⟨l₁, l₂, heq, ⟨hlow, hhigh⟩, hseek⟩

/-- The block lies between the two parts. -/
structure InGap (b : Span) (l₁ l₂ : List Span) : Prop where
  left : ∀ s ∈ l₁, s.stop ≤ b.start
  right : ∀ s ∈ l₂, b.stop ≤ s.start

theorem InGap.disjoint {b : Span} {l₁ l₂ : List Span} (h : InGap b l₁ l₂) :
    Disjoint (cover (l₁ ++ l₂)) b.points := by
  refine Set.disjoint_left.mpr ?_
  intro x ⟨s, hs, hxs⟩ hxb
  simp only [Span.mem_points] at hxs hxb
  rcases List.mem_append.mp hs with hs | hs
  · have := h.left s hs
    omega
  · have := h.right s hs
    omega

/-- A block that meets no entry sits in a gap at the scan index. -/
theorem SplitAt.inGap {b : Span} {l₁ l₂ : List Span} (h : SplitAt b.start l₁ l₂)
    (hsep : Separated (l₁ ++ l₂)) (hb : b.start < b.stop)
    (hdisj : Disjoint (cover (l₁ ++ l₂)) b.points) : InGap b l₁ l₂ := by
  have hout : ∀ s ∈ l₁ ++ l₂, ∀ x ∈ s.points, x ∉ b.points := by
    intro s hs x hx
    exact Set.disjoint_left.mp hdisj (points_subset_cover hs hx)
  obtain ⟨_, h₂, _⟩ := Separated.append_iff.mp hsep
  refine ⟨fun s hs => ?_, fun s hs => ?_⟩
  · by_contra hlt
    have := h.low s hs
    exact hout s (List.mem_append_left _ hs) b.start ⟨by omega, by omega⟩ ⟨le_refl _, hb⟩
  · have hge : b.start ≤ s.start := by
      cases l₂ with
      | nil => exact absurd hs List.not_mem_nil
      | cons q k =>
          have hq := h.high q rfl
          rcases List.mem_cons.mp hs with rfl | hs
          · exact hq
          · obtain ⟨hqne, _, hqk⟩ := Separated.cons_iff.mp h₂
            have := hqk s hs
            omega
    by_contra hlt
    have hne := hsep.nonempty s (List.mem_append_right _ hs)
    exact hout s (List.mem_append_right _ hs) s.start ⟨le_refl _, hne⟩ ⟨hge, by omega⟩

/-- The block runs into the entry below the scan index or the one at it. -/
def OverlapsNeighbour (slots : Vector Span n) (len index : Nat) (b : Span) : Prop :=
  (0 < index ∧ b.start < slots[index - 1]!.stop) ∨
    (index < len ∧ slots[index]!.start < b.stop)

/-- A block is in a gap if and only if it runs into neither neighbour. -/
theorem Holds.inGap_iff {slots : Vector Span n} {len : Nat} {b : Span} {l₁ l₂ : List Span}
    (hfree : Holds slots len (l₁ ++ l₂)) (hsep : Separated (l₁ ++ l₂)) :
    InGap b l₁ l₂ ↔ ¬ OverlapsNeighbour slots len l₁.length b := by
  obtain ⟨hs₁, hs₂, _⟩ := Separated.append_iff.mp hsep
  have hlen := hfree.length
  rw [List.length_append] at hlen
  -- the last entry below the scan index bounds all of them
  have hleft : (∀ s ∈ l₁, s.stop ≤ b.start) ↔
      ¬ (0 < l₁.length ∧ b.start < slots[l₁.length - 1]!.stop) := by
    rcases List.eq_nil_or_concat' l₁ with rfl | ⟨k, p, rfl⟩
    · simp
    rw [List.append_assoc, List.singleton_append] at hfree
    have hget : slots[k.length]! = p := hfree.getElem!
    rw [List.length_append, List.length_singleton, Nat.add_sub_cancel, hget]
    refine ⟨fun h hover => ?_, fun h s hs => ?_⟩
    · have := h p (List.mem_append_right _ List.mem_cons_self)
      omega
    · have hne := hs₁.nonempty p (List.mem_append_right _ List.mem_cons_self)
      rcases List.mem_append.mp hs with hs | hs
      · have := (Separated.append_iff.mp hs₁).2.2 s hs p List.mem_cons_self
        omega
      · rw [List.mem_singleton.mp hs]
        omega
  have hright : (∀ s ∈ l₂, b.stop ≤ s.start) ↔
      ¬ (l₁.length < len ∧ slots[l₁.length]!.start < b.stop) := by
    cases l₂ with
    | nil =>
        rw [List.length_nil] at hlen
        exact ⟨fun _ hover => by omega, fun _ s hs => absurd hs List.not_mem_nil⟩
    | cons q k =>
        have hget : slots[l₁.length]! = q := hfree.getElem!
        rw [List.length_cons] at hlen
        rw [hget]
        refine ⟨fun h hover => ?_, fun h s hs => ?_⟩
        · have := h q List.mem_cons_self
          omega
        · obtain ⟨hqne, _, hqk⟩ := Separated.cons_iff.mp hs₂
          rcases List.mem_cons.mp hs with rfl | hs
          · omega
          · have := hqk s hs
            omega
  rw [OverlapsNeighbour, not_or, ← hleft, ← hright]
  exact ⟨fun h => ⟨h.left, h.right⟩, fun h => ⟨h.1, h.2⟩⟩

/-- A block that touches no entry is one more maximal interval. -/
theorem Separated.ncard_leftEnds_isolated {l : List Span} {b : Span} (h : Separated l)
    (hb : b.start < b.stop) (hdisj : Disjoint (cover l) b.points) (hiso : ¬ Touches l b) :
    (leftEnds (cover l ∪ b.points)).ncard = l.length + 1 := by
  -- the entries in front of the block and those behind it
  have hlow : ∀ s ∈ l, s.stop < b.start ∨ b.stop < s.start := by
    intro s hs
    have hne := h.nonempty s hs
    have hnot : ¬ (s.stop = b.start ∨ s.start = b.stop) := fun ht => hiso ⟨s, hs, ht⟩
    by_contra hno
    have hx : max s.start b.start ∈ s.points ∧ max s.start b.start ∈ b.points := by
      simp only [Span.mem_points]
      omega
    exact Set.disjoint_left.mp hdisj (points_subset_cover hs hx.1) hx.2
  have hset : leftEnds (cover l ∪ b.points) = insert b.start (leftEnds (cover l)) := by
    ext x
    constructor
    · rintro ⟨hx, hleft⟩
      rcases hx with hx | hx
      · exact .inr ⟨hx, fun y hy hmem => hleft y hy (.inl hmem)⟩
      · refine .inl ?_
        simp only [Span.mem_points] at hx
        by_contra hne
        exact hleft (x - 1) (by omega) (.inr ⟨by omega, by omega⟩)
    · intro hx
      rcases hx with rfl | ⟨hx, hleft⟩
      · refine ⟨.inr ⟨le_refl _, hb⟩, fun y hy hmem => ?_⟩
        rcases hmem with ⟨s, hs, hys⟩ | hyb
        · simp only [Span.mem_points] at hys
          have := hlow s hs
          omega
        · simp only [Span.mem_points] at hyb
          omega
      · refine ⟨.inl hx, fun y hy hmem => ?_⟩
        rcases hmem with hmem | hyb
        · exact hleft y hy hmem
        · obtain ⟨s, hs, hxs⟩ := hx
          simp only [Span.mem_points] at hxs hyb
          have := hlow s hs
          omega
  have hnew : b.start ∉ leftEnds (cover l) := by
    intro hmem
    exact Set.disjoint_left.mp hdisj hmem.1 ⟨le_refl _, hb⟩
  have hfinite : (leftEnds (cover l)).Finite :=
    (Separated.finite_cover l).subset fun x hx => hx.1
  rw [hset, Set.ncard_insert_of_notMem hnew hfinite, h.ncard_leftEnds]

end GenericKernel.Lib
