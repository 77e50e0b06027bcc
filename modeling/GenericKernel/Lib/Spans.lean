import Mathlib

/-!
# Separated span lists

A *span* is a half-open interval `[start, stop)` of natural numbers. A list of
spans is `Separated` when its members are non-empty, ascending and pairwise
non-adjacent: the normal form in which a range allocator keeps its free list.

* **canonicity** — a separated list is determined by the set it covers
  (`Separated.ext`): its members are exactly the maximal intervals of that
  set (`Separated.mem_iff_maximal`);
* **counting** — its total length is the size of the covered set
  (`Separated.ncard_cover`) and its number of members is the number of left
  ends of that set (`Separated.ncard_leftEnds`);
* **carving** — cutting `[start, stop)` out of one member
  (`Separated.carve`, `cover_carve`);
* **giving back** — the coalescing insertion of a span disjoint from the list
  (`Separated.giveBack`, `cover_giveBack`).
-/

namespace GenericKernel.Lib

/-- The half-open interval `[start, stop)`. -/
structure Span where
  start : Nat
  stop : Nat
  deriving DecidableEq, Repr, Inhabited

variable {s b r : Span} {l l₁ l₂ : List Span}

namespace Span

/-- Number of points of the span. -/
def length (s : Span) : Nat := s.stop - s.start

/-- The points of the span. -/
def points (s : Span) : Set Nat := {x | s.start ≤ x ∧ x < s.stop}

@[simp] theorem mem_points {x : Nat} : x ∈ s.points ↔ s.start ≤ x ∧ x < s.stop := Iff.rfl

theorem points_eq_Ico (s : Span) : s.points = Set.Ico s.start s.stop := rfl

theorem ncard_points (s : Span) : s.points.ncard = s.length := by
  rw [points_eq_Ico, ← Finset.coe_Ico, Set.ncard_coe_finset, Nat.card_Ico]
  rfl

theorem finite_points (s : Span) : s.points.Finite := Set.finite_Ico _ _

/-- A maximal interval of `S`: non-empty, inside `S`, and stopped on both
sides by a point outside `S` (or by the origin). -/
structure Maximal (S : Set Nat) (s : Span) : Prop where
  nonempty : s.start < s.stop
  inside : s.points ⊆ S
  left : ∀ x, x + 1 = s.start → x ∉ S
  right : s.stop ∉ S

end Span

/-- The set covered by a list of spans. -/
def cover (l : List Span) : Set Nat := {x | ∃ s ∈ l, x ∈ s.points}

@[simp] theorem cover_nil : cover [] = ∅ := by
  ext x
  simp [cover]

@[simp] theorem cover_cons (s : Span) (l : List Span) :
    cover (s :: l) = s.points ∪ cover l := by
  ext x
  simp [cover]

@[simp] theorem cover_append (l₁ l₂ : List Span) :
    cover (l₁ ++ l₂) = cover l₁ ∪ cover l₂ := by
  ext x
  simp [cover, or_and_right, exists_or]

theorem points_subset_cover (h : s ∈ l) : s.points ⊆ cover l := fun _ hx => ⟨s, h, hx⟩

/-- Non-empty, ascending, with a gap between neighbours. -/
structure Separated (l : List Span) : Prop where
  nonempty : ∀ s ∈ l, s.start < s.stop
  apart : l.Pairwise (fun a b => a.stop < b.start)

namespace Separated

theorem nil : Separated [] := ⟨by simp, List.Pairwise.nil⟩

theorem singleton (h : s.start < s.stop) : Separated [s] :=
  ⟨by simpa using h, List.pairwise_singleton _ _⟩

theorem tail (h : Separated (s :: l)) : Separated l :=
  ⟨fun t ht => h.nonempty t (List.mem_cons_of_mem _ ht), (List.pairwise_cons.mp h.apart).2⟩

/-- Two separated lists with a gap between them are separated together. -/
theorem append (h₁ : Separated l₁) (h₂ : Separated l₂) (h : ∀ a ∈ l₁, ∀ b ∈ l₂, a.stop < b.start) :
    Separated (l₁ ++ l₂) := by
  refine ⟨fun s hs => ?_, List.pairwise_append.mpr ⟨h₁.apart, h₂.apart, h⟩⟩
  rcases List.mem_append.mp hs with hs | hs
  · exact h₁.nonempty s hs
  · exact h₂.nonempty s hs

theorem append_iff :
    Separated (l₁ ++ l₂) ↔
      Separated l₁ ∧ Separated l₂ ∧ ∀ a ∈ l₁, ∀ b ∈ l₂, a.stop < b.start := by
  constructor
  · intro h
    obtain ⟨p₁, p₂, p₃⟩ := List.pairwise_append.mp h.apart
    exact ⟨⟨fun s hs => h.nonempty s (List.mem_append_left _ hs), p₁⟩,
      ⟨fun s hs => h.nonempty s (List.mem_append_right _ hs), p₂⟩, p₃⟩
  · rintro ⟨h₁, h₂, h⟩
    exact h₁.append h₂ h

theorem cons_iff :
    Separated (s :: l) ↔
      s.start < s.stop ∧ Separated l ∧ ∀ b ∈ l, s.stop < b.start := by
  constructor
  · intro h
    exact ⟨h.nonempty s List.mem_cons_self, h.tail, (List.pairwise_cons.mp h.apart).1⟩
  · rintro ⟨hs, hl, hb⟩
    exact (singleton hs).append hl (by simpa using hb)

/-- Two members coincide or lie on either side of a gap. -/
theorem trichotomy (h : Separated l) {a : Span} (ha : a ∈ l) (hb : b ∈ l) :
    a = b ∨ a.stop < b.start ∨ b.stop < a.start := by
  induction l with
  | nil => exact absurd ha List.not_mem_nil
  | cons s l ih =>
      obtain ⟨_, hl, hs⟩ := cons_iff.mp h
      rcases List.mem_cons.mp ha with ha | ha <;> rcases List.mem_cons.mp hb with hb | hb
      · exact .inl (ha.trans hb.symm)
      · exact .inr (.inl (ha ▸ hs b hb))
      · exact .inr (.inr (hb ▸ hs a ha))
      · exact ih hl ha hb

/-- Members of a separated list that meet are equal. -/
theorem eq_of_mem (h : Separated l) {a : Span} (ha : a ∈ l) (hb : b ∈ l) {x : Nat}
    (hxa : x ∈ a.points) (hxb : x ∈ b.points) : a = b := by
  simp only [Span.mem_points] at hxa hxb
  rcases h.trichotomy ha hb with hab | hab | hab
  · exact hab
  · omega
  · omega

/-- Every member is a maximal interval of the covered set. -/
theorem maximal {l : List Span} (h : Separated l) {s : Span} (hs : s ∈ l) :
    s.Maximal (cover l) := by
  have hne := h.nonempty s hs
  refine ⟨hne, points_subset_cover hs, ?_, ?_⟩
  · rintro x hx ⟨t, ht, hxt⟩
    simp only [Span.mem_points] at hxt
    rcases h.trichotomy hs ht with rfl | hst | hst <;> omega
  · rintro ⟨t, ht, hxt⟩
    simp only [Span.mem_points] at hxt
    rcases h.trichotomy hs ht with rfl | hst | hst <;> omega

/-- The members are exactly the maximal intervals of the covered set. -/
theorem mem_iff_maximal (h : Separated l) : s ∈ l ↔ s.Maximal (cover l) := by
  refine ⟨h.maximal, fun hm => ?_⟩
  -- The member holding the left end of `s` can neither start before `s` nor
  -- stop before `s` does, and the same the other way round.
  have hin : s.start ∈ s.points := ⟨le_refl _, hm.nonempty⟩
  obtain ⟨t, ht, hst⟩ := hm.inside hin
  have hmt := h.maximal ht
  simp only [Span.mem_points] at hst
  have hstart : t.start = s.start := by
    by_contra hne
    refine hm.left (s.start - 1) (by omega) ⟨t, ht, ?_⟩
    simp only [Span.mem_points]
    omega
  have hstop : t.stop = s.stop := by
    rcases Nat.lt_trichotomy t.stop s.stop with hlt | heq | hgt
    · have hts : t.stop ∈ s.points := ⟨by omega, hlt⟩
      exact absurd (hm.inside hts) hmt.right
    · exact heq
    · exact absurd ⟨t, ht, by simp only [Span.mem_points]; have := hm.nonempty; omega⟩ hm.right
  have : s = t := by
    cases s
    cases t
    simp_all
  exact this ▸ ht

/-- An interval inside the covered set lies inside one member. -/
theorem exists_container (h : Separated l) (hs : s.start < s.stop) (hsub : s.points ⊆ cover l) :
    ∃ r ∈ l, r.start ≤ s.start ∧ s.stop ≤ r.stop := by
  have hfirst : s.start ∈ s.points := ⟨le_refl _, hs⟩
  obtain ⟨r, hr, hrs⟩ := hsub hfirst
  simp only [Span.mem_points] at hrs
  refine ⟨r, hr, hrs.1, ?_⟩
  by_contra hlt
  have hmid : r.stop ∈ s.points := ⟨by omega, by omega⟩
  exact (h.maximal hr).right (hsub hmid)

theorem nodup (h : Separated l) : l.Nodup := by
  refine h.apart.imp_of_mem ?_
  intro a b ha _ hab heq
  have := h.nonempty a ha
  subst heq
  omega

/-- **Canonicity**: a separated list is determined by the set it covers. -/
theorem ext (h₁ : Separated l₁) (h₂ : Separated l₂) (h : cover l₁ = cover l₂) : l₁ = l₂ := by
  have hperm : l₁.Perm l₂ := by
    refine (List.perm_ext_iff_of_nodup h₁.nodup h₂.nodup).mpr fun s => ?_
    rw [h₁.mem_iff_maximal, h₂.mem_iff_maximal, h]
  refine hperm.eq_of_pairwise ?_ h₁.apart h₂.apart
  intro a b ha hb hab hba
  have := h₁.nonempty a ha
  have := h₂.nonempty b hb
  omega

theorem finite_cover (l : List Span) : (cover l).Finite := by
  induction l with
  | nil => simp
  | cons s l ih =>
      rw [cover_cons]
      exact s.finite_points.union ih

theorem disjoint_head (h : Separated (s :: l)) : Disjoint s.points (cover l) := by
  refine Set.disjoint_left.mpr ?_
  rintro x hx ⟨t, ht, hxt⟩
  have := (cons_iff.mp h).2.2 t ht
  simp only [Span.mem_points] at hx hxt
  omega

end Separated

/-- Total length of a list of spans. -/
def totalLength (l : List Span) : Nat := (l.map Span.length).sum

@[simp] theorem totalLength_nil : totalLength [] = 0 := rfl

@[simp] theorem totalLength_cons (s : Span) (l : List Span) :
    totalLength (s :: l) = s.length + totalLength l := rfl

@[simp] theorem totalLength_append (l₁ l₂ : List Span) :
    totalLength (l₁ ++ l₂) = totalLength l₁ + totalLength l₂ := by
  simp [totalLength]

namespace Separated

/-- The total length of a separated list is the size of the covered set. -/
theorem ncard_cover (h : Separated l) : (cover l).ncard = totalLength l := by
  induction l with
  | nil => simp
  | cons s l ih =>
      rw [cover_cons, Set.ncard_union_eq h.disjoint_head s.finite_points (finite_cover l),
        s.ncard_points, ih h.tail, totalLength_cons]

end Separated

/-- Spans below a bound have a total length below it. -/
theorem Separated.totalLength_le (h : Separated l) {bound : Nat} (hle : ∀ s ∈ l, s.stop ≤ bound) :
    totalLength l ≤ bound := by
  have hsub : cover l ⊆ (⟨0, bound⟩ : Span).points := by
    intro x ⟨s, hs, hxs⟩
    have := hle s hs
    simp only [Span.mem_points] at hxs ⊢
    omega
  have hcard := Set.ncard_le_ncard hsub (Span.finite_points _)
  rw [h.ncard_cover, Span.ncard_points] at hcard
  simpa [Span.length] using hcard

/-- The left ends of the maximal intervals of `S`. -/
def leftEnds (S : Set Nat) : Set Nat := {x | x ∈ S ∧ ∀ y, y + 1 = x → y ∉ S}

/-- The number of members of a separated list is the number of maximal
intervals of the covered set. -/
theorem Separated.ncard_leftEnds (h : Separated l) : (leftEnds (cover l)).ncard = l.length := by
  have hset : leftEnds (cover l) = {x | x ∈ l.map Span.start} := by
    ext x
    simp only [leftEnds, Set.mem_ofPred_eq, List.mem_map]
    constructor
    · rintro ⟨⟨s, hs, hxs⟩, hleft⟩
      simp only [Span.mem_points] at hxs
      refine ⟨s, hs, ?_⟩
      by_contra hne
      refine hleft (x - 1) (by omega) ⟨s, hs, ?_⟩
      simp only [Span.mem_points]
      omega
    · rintro ⟨s, hs, rfl⟩
      have hm := h.maximal hs
      exact ⟨hm.inside ⟨le_refl _, hm.nonempty⟩, hm.left⟩
  have hnodup : (l.map Span.start).Nodup := by
    rw [List.nodup_map_iff_inj_on h.nodup]
    intro a ha b hb hab
    have := h.nonempty a ha
    have := h.nonempty b hb
    rcases h.trichotomy ha hb with heq | hlt | hlt
    · exact heq
    · omega
    · omega
  rw [hset, ← List.coe_toFinset, Set.ncard_coe_finset, List.toFinset_card_of_nodup hnodup,
    List.length_map]

/-! ## Carving -/

/-- What is left of `r` on either side of `b`. -/
def remainder (r b : Span) : List Span :=
  (if r.start < b.start then [⟨r.start, b.start⟩] else []) ++
    (if b.stop < r.stop then [⟨b.stop, r.stop⟩] else [])

theorem remainder_separated (hb : b.start < b.stop) : Separated (remainder r b) := by
  unfold remainder
  refine Separated.append ?_ ?_ ?_
  · split
    · exact Separated.singleton (by assumption)
    · exact Separated.nil
  · split
    · exact Separated.singleton (by assumption)
    · exact Separated.nil
  · intro x hx y hy
    split at hx
    · split at hy
      · simp only [List.mem_singleton] at hx hy
        subst hx hy
        exact hb
      · exact absurd hy List.not_mem_nil
    · exact absurd hx List.not_mem_nil

theorem mem_remainder_bounds (hs : s ∈ remainder r b) :
    (s.start = r.start ∧ s.stop = b.start ∧ r.start < b.start) ∨
      (s.start = b.stop ∧ s.stop = r.stop ∧ b.stop < r.stop) := by
  unfold remainder at hs
  rcases List.mem_append.mp hs with hs | hs
  · split at hs
    · rw [List.mem_singleton.mp hs]
      exact .inl ⟨rfl, rfl, by assumption⟩
    · exact absurd hs List.not_mem_nil
  · split at hs
    · rw [List.mem_singleton.mp hs]
      exact .inr ⟨rfl, rfl, by assumption⟩
    · exact absurd hs List.not_mem_nil

theorem cover_remainder (hl : r.start ≤ b.start) (hr : b.stop ≤ r.stop) (hb : b.start < b.stop) :
    cover (remainder r b) = r.points \ b.points := by
  ext x
  unfold remainder
  rw [cover_append]
  split <;> split <;>
    simp only [cover_cons, cover_nil, Set.union_empty, Set.empty_union, Set.mem_union,
      Span.mem_points, Set.mem_sdiff, Set.mem_empty_iff_false] <;>
    constructor <;> intro hx <;> first | omega | exact hx.elim

/-- Cutting `b` out of the member `r` keeps the list separated. -/
theorem Separated.carve {l₁ l₂ : List Span} {r b : Span} (h : Separated (l₁ ++ r :: l₂))
    (hl : r.start ≤ b.start) (hr : b.stop ≤ r.stop) (hb : b.start < b.stop) :
    Separated (l₁ ++ remainder r b ++ l₂) := by
  obtain ⟨h₁, h₂, h₃⟩ := Separated.append_iff.mp h
  obtain ⟨_, h₄, h₅⟩ := Separated.cons_iff.mp h₂
  have hmid : Separated (l₁ ++ remainder r b) := by
    refine h₁.append (remainder_separated hb) fun x hx y hy => ?_
    have := h₃ x hx r List.mem_cons_self
    rcases mem_remainder_bounds hy with hy | hy <;> omega
  refine hmid.append h₄ fun x hx y hy => ?_
  rcases List.mem_append.mp hx with hx | hx
  · exact h₃ x hx y (List.mem_cons_of_mem _ hy)
  · have := h₅ y hy
    rcases mem_remainder_bounds hx with hx | hx <;> omega

/-- Cutting `b` out of the member `r` removes exactly `b` from the covered
set. -/
theorem cover_carve {l₁ l₂ : List Span} {r b : Span} (h : Separated (l₁ ++ r :: l₂))
    (hl : r.start ≤ b.start) (hr : b.stop ≤ r.stop) (hb : b.start < b.stop) :
    cover (l₁ ++ remainder r b ++ l₂) = cover (l₁ ++ r :: l₂) \ b.points := by
  have hout : ∀ t ∈ l₁ ++ l₂, ∀ x ∈ t.points, x ∉ b.points := by
    intro t ht x hxt hxb
    have hne : t.stop < r.start ∨ r.stop < t.start := by
      obtain ⟨_, h₂, h₃⟩ := Separated.append_iff.mp h
      rcases List.mem_append.mp ht with ht | ht
      · exact .inl (h₃ t ht r List.mem_cons_self)
      · exact .inr ((Separated.cons_iff.mp h₂).2.2 t ht)
    simp only [Span.mem_points] at hxt hxb
    omega
  have h₁ : cover l₁ \ b.points = cover l₁ := by
    refine sdiff_eq_left.mpr (Set.disjoint_left.mpr ?_)
    rintro x ⟨t, ht, hxt⟩
    exact hout t (List.mem_append_left _ ht) x hxt
  have h₂ : cover l₂ \ b.points = cover l₂ := by
    refine sdiff_eq_left.mpr (Set.disjoint_left.mpr ?_)
    rintro x ⟨t, ht, hxt⟩
    exact hout t (List.mem_append_right _ ht) x hxt
  simp only [cover_append, cover_cons, cover_remainder hl hr hb, Set.union_sdiff_distrib, h₁, h₂,
    Set.union_assoc]

/-! ## Giving back -/

/-- Put `b` in front of `l`, merging it with an adjacent head. -/
def joinRight (b : Span) : List Span → List Span
  | [] => [b]
  | q :: l => if q.start = b.stop then ⟨b.start, q.stop⟩ :: l else b :: q :: l

/-- Put `b` between `l₁` and `l₂`, merging it with adjacent neighbours. -/
def giveBack (l₁ l₂ : List Span) (b : Span) : List Span :=
  match l₁.getLast? with
  | none => l₁ ++ joinRight b l₂
  | some p =>
      if p.stop = b.start then l₁.dropLast ++ joinRight ⟨p.start, b.stop⟩ l₂
      else l₁ ++ joinRight b l₂

theorem le_start_of_mem_joinRight (hb : b.start < b.stop) (h : ∀ t ∈ l, b.stop ≤ t.start)
    (hs : s ∈ joinRight b l) : b.start ≤ s.start := by
  cases l with
  | nil =>
      rw [joinRight, List.mem_singleton] at hs
      rw [hs]
  | cons q l =>
      rw [joinRight] at hs
      have hle : ∀ t ∈ q :: l, b.start ≤ t.start := fun t ht => by
        have := h t ht
        omega
      split at hs
      · rcases List.mem_cons.mp hs with rfl | hs
        · exact le_refl _
        · exact hle s (List.mem_cons_of_mem _ hs)
      · rcases List.mem_cons.mp hs with rfl | hs
        · exact le_refl _
        · exact hle s hs

theorem joinRight_separated (hl : Separated l) (hb : b.start < b.stop)
    (h : ∀ t ∈ l, b.stop ≤ t.start) : Separated (joinRight b l) := by
  cases l with
  | nil => exact Separated.singleton hb
  | cons q l =>
      obtain ⟨hq, hl', hql⟩ := Separated.cons_iff.mp hl
      have hbq := h q List.mem_cons_self
      rw [joinRight]
      split
      · refine Separated.cons_iff.mpr ⟨?_, hl', hql⟩
        show b.start < q.stop
        omega
      · refine Separated.cons_iff.mpr ⟨hb, hl, fun t ht => ?_⟩
        rcases List.mem_cons.mp ht with rfl | ht
        · omega
        · have := hql t ht
          omega

theorem cover_joinRight (hl : Separated l) (hb : b.start < b.stop) :
    cover (joinRight b l) = b.points ∪ cover l := by
  cases l with
  | nil => simp [joinRight]
  | cons q l =>
      have hq := (Separated.cons_iff.mp hl).1
      rw [joinRight]
      split
      · rw [cover_cons, cover_cons, ← Set.union_assoc]
        congr 1
        ext x
        simp only [Span.mem_points, Set.mem_union]
        omega
      · rw [cover_cons]

/-- Giving back a span that lies between `l₁` and `l₂` keeps the list
separated and adds exactly that span to the covered set. -/
theorem Separated.giveBack (h : Separated (l₁ ++ l₂)) (hb : b.start < b.stop)
    (h₁ : ∀ t ∈ l₁, t.stop ≤ b.start) (h₂ : ∀ t ∈ l₂, b.stop ≤ t.start) :
    Separated (giveBack l₁ l₂ b) ∧
      cover (giveBack l₁ l₂ b) = cover (l₁ ++ l₂) ∪ b.points := by
  obtain ⟨hl₁, hl₂, _⟩ := Separated.append_iff.mp h
  rcases List.eq_nil_or_concat l₁ with rfl | ⟨l, p, rfl⟩
  · refine ⟨joinRight_separated hl₂ hb h₂, ?_⟩
    show cover (joinRight b l₂) = cover l₂ ∪ b.points
    rw [cover_joinRight hl₂ hb, Set.union_comm]
  · simp only [List.concat_eq_append] at *
    obtain ⟨hl, hp, hlp⟩ := Separated.append_iff.mp hl₁
    have hpne := hp.nonempty p List.mem_cons_self
    have hpb := h₁ p (by simp)
    rw [Lib.giveBack, List.getLast?_concat]
    dsimp only
    split
    · rename_i hadj
      rw [List.dropLast_concat]
      -- `p` and `b` together form the span that meets `l₂`.
      have hjoin : Span.start ⟨p.start, b.stop⟩ < Span.stop ⟨p.start, b.stop⟩ := by
        show p.start < b.stop
        omega
      constructor
      · refine hl.append (joinRight_separated hl₂ hjoin h₂) fun x hx y hy => ?_
        have hle := le_start_of_mem_joinRight hjoin h₂ hy
        have hlt := hlp x hx p List.mem_cons_self
        exact Nat.lt_of_lt_of_le hlt hle
      · rw [cover_append, cover_joinRight hl₂ hjoin]
        simp only [cover_append, cover_cons, cover_nil, Set.union_empty]
        ext x
        simp only [Set.mem_union, Span.mem_points]
        by_cases hx : x ∈ cover l
        · simp [hx]
        · by_cases hx' : x ∈ cover l₂
          · simp [hx']
          · simp only [hx, hx', false_or, or_false]
            omega
    · rename_i hadj
      constructor
      · refine hl₁.append (joinRight_separated hl₂ hb h₂) fun x hx y hy => ?_
        have hle := le_start_of_mem_joinRight hb h₂ hy
        rcases List.mem_append.mp hx with hx | hx
        · have := hlp x hx p List.mem_cons_self
          omega
        · rw [List.mem_singleton.mp hx]
          omega
      · rw [cover_append, cover_joinRight hl₂ hb, cover_append (l ++ [p]) l₂]
        rw [Set.union_comm b.points, Set.union_assoc]

end GenericKernel.Lib
