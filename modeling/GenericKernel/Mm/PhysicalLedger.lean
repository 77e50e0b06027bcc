import GenericKernel.Lib.Ledger
import GenericKernel.Mm.PhysicalLogic

/-!
# The physical-memory ledger

A ledger pairs the allocator with the set of blocks it has handed out. Calls
are performed in any order, as long as every free that succeeds returns a whole
live block (`ReturnsLive`). The invariant `Balanced` says that live blocks and
free list tile the managed bytes; a tiling is determined by its live blocks, so
the whole allocator state is a function of the initial map and the live set.
-/

namespace GenericKernel.Mm

open GenericKernel.Lib

/-! ## Page-wise sets -/

/-- A set of bytes that contains every page it meets. -/
def Paged (S : Set Nat) : Prop := ∀ x y, x / pageSize = y / pageSize → x ∈ S → y ∈ S

theorem Paged.diff {S T : Set Nat} (hS : Paged S) (hT : Paged T) : Paged (S \ T) := by
  intro x y hxy hx
  exact ⟨hS x y hxy hx.1, fun hy => hx.2 (hT y x hxy.symm hy)⟩

/-- A span with page-aligned ends. -/
theorem paged_points {s : Span} (hstart : pageSize ∣ s.start) (hstop : pageSize ∣ s.stop) :
    Paged s.points := by
  obtain ⟨a, ha⟩ := hstart
  obtain ⟨b, hb⟩ := hstop
  have hpos : 0 < pageSize := by decide
  have hiff : ∀ z, z ∈ s.points ↔ a ≤ z / pageSize ∧ z / pageSize < b := by
    intro z
    rw [Span.mem_points, ha, hb, Nat.le_div_iff_mul_le hpos, Nat.div_lt_iff_lt_mul hpos,
      Nat.mul_comm pageSize a, Nat.mul_comm pageSize b]
  intro x y hxy hx
  rw [hiff] at hx ⊢
  rw [← hxy]
  exact hx

theorem PageList.paged {l : List Region} (h : PageList l) : Paged (cover l) := by
  intro x y hxy ⟨s, hs, hxs⟩
  exact ⟨s, hs, paged_points (h.pages s hs).start_aligned (h.pages s hs).stop_aligned x y hxy hxs⟩

/-- A byte and its predecessor share a page unless a page starts there. -/
theorem div_pageSize_pred {x : Nat} (h : ¬ pageSize ∣ x) :
    (x - 1) / pageSize = x / pageSize := by
  have hne : x % pageSize ≠ 0 := fun h0 => h (Nat.dvd_of_mod_eq_zero h0)
  have hdiv := Nat.div_add_mod x pageSize
  have hmod := Nat.mod_lt x (show 0 < pageSize by decide)
  have hpred : x - 1 = pageSize * (x / pageSize) + (x % pageSize - 1) := by omega
  rw [hpred, Nat.mul_add_div (by decide),
    Nat.div_eq_of_lt (show x % pageSize - 1 < pageSize by omega)]
  rfl

variable {ms : List Region}

/-- A separated list that covers a page-wise part of a page list is a page
list. -/
theorem pageList_of_paged {l : List Region} (hms : PageList ms) (hl : Separated l)
    (hpaged : Paged (cover l)) (hsub : cover l ⊆ cover ms) : PageList l := by
  refine ⟨hl, fun s hs => ?_⟩
  have hmax := hl.maximal hs
  have hne := hmax.nonempty
  have hfirst : s.start ∈ cover l := hmax.inside ⟨le_refl _, hne⟩
  have hlast : s.stop - 1 ∈ cover l := hmax.inside ⟨by omega, by omega⟩
  obtain ⟨r, hr, hsr⟩ := hsub hfirst
  obtain ⟨q, hq, hsq⟩ := hsub hlast
  simp only [Span.mem_points] at hsr hsq
  have hrpage := hms.pages r hr
  have hqpage := hms.pages q hq
  refine ⟨?_, ?_, ?_, ?_⟩
  · by_contra hdvd
    have hpos : 0 < s.start := by
      rcases Nat.eq_zero_or_pos s.start with h0 | h0
      · rw [h0] at hdvd
        exact absurd (dvd_zero _) hdvd
      · exact h0
    exact hmax.left (s.start - 1) (by omega)
      (hpaged s.start (s.start - 1) (div_pageSize_pred hdvd).symm hfirst)
  · by_contra hdvd
    exact hmax.right (hpaged (s.stop - 1) s.stop (div_pageSize_pred hdvd) hlast)
  · have := hrpage.above_null
    omega
  · have := hqpage.below_word
    omega

/-! ## Calls and runs -/

/-- A block handed out: `pages` pages at `start`. -/
structure Block where
  start : Nat
  pages : Nat
  deriving DecidableEq, Repr

namespace Block

def span (b : Block) : Span := PhysicalMemory.pageBlock b.start b.pages

/-- Bytes of the block. -/
def bytes (b : Block) : Nat := b.pages * pageSize

end Block

/-- The calls of the allocator. -/
inductive Call
  | allocatePages (pages alignPages : Nat)
  | allocateFrame
  | freePages (start pages : Nat)

/-- The allocator together with the blocks that are live. -/
structure Ledger (N : Nat) where
  memory : PhysicalMemory N
  live : Finset Block

namespace Ledger

variable {N : Nat} {s : Ledger N} {m₀ : PhysicalMemory N}

/-- An allocation enters the block it returns. -/
def allocate (s : Ledger N) (pages : Nat)
    (result : Except PhysicalMemoryError (Option Nat) × PhysicalMemory N) : Ledger N :=
  match result with
  | (.ok (some start), memory) => ⟨memory, insert ⟨start, pages⟩ s.live⟩
  | (_, memory) => ⟨memory, s.live⟩

/-- Perform one call and keep the books. -/
def perform (s : Ledger N) : Call → Ledger N
  | .allocatePages pages alignPages =>
      s.allocate pages (s.memory.allocatePages pages alignPages)
  | .allocateFrame => s.allocate 1 s.memory.allocateFrame
  | .freePages start pages =>
      match s.memory.freePages start pages with
      | (.ok _, memory) => ⟨memory, s.live.erase ⟨start, pages⟩⟩
      | (.error _, memory) => ⟨memory, s.live⟩

/-- A free that succeeds returns a whole live block. -/
def ReturnsLive (s : Ledger N) : Call → Prop
  | .freePages start pages =>
      (s.memory.freePages start pages).1 = .ok () → ⟨start, pages⟩ ∈ s.live
  | _ => True

/-- The ledgers reachable from a fresh allocator. -/
inductive Reachable (m₀ : PhysicalMemory N) : Ledger N → Prop
  | init : Reachable m₀ ⟨m₀, ∅⟩
  | step {s : Ledger N} {call : Call} : Reachable m₀ s → s.ReturnsLive call →
      Reachable m₀ (s.perform call)

/-- The invariant behind the ledger: the live blocks are managed page blocks,
and together with the free list they tile the managed bytes. -/
structure Balanced (ms : List Region) (s : Ledger N) : Prop where
  managed : PageList ms
  blocks : ∀ b ∈ s.live, PhysicalMemory.ManagedBlock ms b.start b.pages
  tiles : ∃ fs, s.memory.Shows ms fs ∧ Tiles Block.span (cover ms) s.live fs

/-- The free list of a balanced ledger is a page list inside the managed
one. -/
theorem Balanced.sound {fs : List Region} (h : Balanced ms s)
    (ht : Tiles Block.span (cover ms) s.live fs) : PhysicalMemory.Sound ms fs := by
  have hpaged : Paged (cover fs) := by
    rw [ht.cover]
    refine h.managed.paged.diff ?_
    intro x y hxy ⟨b, hb, hxb⟩
    have hblock := h.blocks b hb
    exact ⟨b, hb, paged_points hblock.aligned
      (Nat.dvd_add hblock.aligned (Nat.dvd_mul_left _ _)) x y hxy hxb⟩
  exact ⟨h.managed, pageList_of_paged h.managed ht.separated hpaged ht.cover_subset,
    ht.cover_subset⟩

theorem balanced_init (hm : m₀.Shows ms ms) (hms : PageList ms) :
    Balanced ms (⟨m₀, ∅⟩ : Ledger N) :=
  ⟨hms, by simp, ms, hm, Tiles.init hms.separated⟩

/-- A carved block is a managed page block. -/
theorem managedBlock_of_carved {fs fs' : List Region} {pages alignPages : Nat} {b : Span}
    (hs : PhysicalMemory.Sound ms fs) (hcarved : PhysicalMemory.Carved pages alignPages fs b fs') :
    PhysicalMemory.ManagedBlock ms b.start pages := by
  obtain ⟨l₁, r, l₂, rfl, _, hl, hr, rfl⟩ := hcarved.carve
  have hrmem : r ∈ l₁ ++ r :: l₂ := List.mem_append_right _ List.mem_cons_self
  have hrpage := hs.free.pages r hrmem
  have hnull := hrpage.above_null
  have hword := hrpage.below_word
  have hsize := hcarved.size
  have hpos := Nat.mul_pos (Nat.pos_of_ne_zero hcarved.valid.1) (show 0 < pageSize by decide)
  refine ⟨hcarved.valid.1, by omega, Nat.dvd_trans (Nat.dvd_mul_left _ _) hcarved.aligned,
    by omega, ?_⟩
  have hsub : b.points ⊆ cover ms := by
    intro x hx
    simp only [Span.mem_points] at hx
    exact hs.sub ⟨r, hrmem, by omega, by omega⟩
  rw [← hsize]
  exact hs.managed.separated.exists_container (by omega) hsub

/-- An allocation keeps the ledger balanced, whatever its outcome. -/
theorem Balanced.allocatePages (h : Balanced ms s) (pages alignPages : Nat) :
    Balanced ms (s.allocate pages (s.memory.allocatePages pages alignPages)) := by
  obtain ⟨fs, hm, ht⟩ := h.tiles
  rcases PhysicalMemory.allocatePages_cases hm pages alignPages with
    ⟨e, he⟩ | hnone | ⟨b, fs', m', hok, hcarved, hm'⟩
  · rw [he]
    exact h
  · rw [hnone]
    exact h
  · rw [hok]
    have hblock := managedBlock_of_carved (h.sound ht) hcarved
    obtain ⟨l₁, r, l₂, rfl, _, hl, hr, rfl⟩ := hcarved.carve
    have hspan : Block.span ⟨b.start, pages⟩ = b := by
      show (⟨b.start, b.start + pages * pageSize⟩ : Span) = b
      rw [← hcarved.size]
    refine ⟨h.managed, ?_, _, hm', ?_⟩
    · intro a ha
      rcases Finset.mem_insert.mp ha with rfl | ha
      · exact hblock
      · exact h.blocks a ha
    · have hnext := ht.carve (b := Block.mk b.start pages) (by rw [hspan]; exact hl)
        (by rw [hspan]; exact hr) hblock.nonempty
      rw [hspan] at hnext
      exact hnext

/-- **Step**: every permitted call keeps the ledger balanced. -/
theorem Balanced.perform {ms : List Region} {s : Ledger N} (h : Balanced ms s) (call : Call)
    (hlive : s.ReturnsLive call) : Balanced ms (s.perform call) := by
  cases call with
  | allocatePages pages alignPages => exact h.allocatePages pages alignPages
  | allocateFrame => exact h.allocatePages 1 1
  | freePages start pages =>
      obtain ⟨fs, hm, ht⟩ := h.tiles
      unfold Ledger.perform
      rcases PhysicalMemory.freePages_cases hm (h.sound ht) start pages with
        ⟨_, _, _, fs', m', hok, hm', hsep', hcover'⟩ | ⟨_, e, he⟩
      · have hmem : ⟨start, pages⟩ ∈ s.live := hlive (by rw [hok])
        simp only [hok]
        exact ⟨h.managed, fun b hb => h.blocks b (Finset.mem_of_mem_erase hb), fs', hm',
          ht.giveBack hmem hsep' hcover'⟩
      · simp only [he]
        exact h

/-- **Run**: every reachable ledger is balanced. -/
theorem Reachable.balanced (hm : m₀.Shows ms ms) (hms : PageList ms) (h : Reachable m₀ s) :
    Balanced ms s := by
  induction h with
  | init => exact balanced_init hm hms
  | step _ hlive ih => exact ih.perform _ hlive

/-- The live blocks of a balanced ledger determine its memory. -/
theorem Balanced.memory_unique {s' : Ledger N} (h : Balanced ms s) (h' : Balanced ms s')
    (hlive : s.live = s'.live) : s.memory = s'.memory := by
  obtain ⟨fs, hm, ht⟩ := h.tiles
  obtain ⟨fs', hm', ht'⟩ := h'.tiles
  rw [← hlive] at ht'
  obtain rfl := ht.unique ht'
  exact hm.unique hm'

/-! ## What the ledger guarantees -/

/-- The books of a ledger opened on the fresh allocator `m₀`. -/
structure Exact (m₀ : PhysicalMemory N) (s : Ledger N) : Prop where
  disjoint : ∀ a ∈ s.live, ∀ b ∈ s.live, a ≠ b → Disjoint a.span.points b.span.points
  aligned : ∀ b ∈ s.live, pageSize ∣ b.start ∧ 0 < b.pages
  inside : ∀ b ∈ s.live, ∃ r ∈ m₀.managedRegions,
    r.start ≤ b.span.start ∧ b.span.stop ≤ r.stop
  above_null : ∀ b ∈ s.live, pageSize ≤ b.start
  managed : s.memory.managedRegions = m₀.managedRegions
  ascending : s.memory.freeRegions.Pairwise (fun a b => a.stop < b.start)
  maximal : ∀ r, r ∈ s.memory.freeRegions ↔
    r.Maximal (cover m₀.managedRegions \ occupied Block.span s.live)
  pages : ∀ r ∈ s.memory.freeRegions, pageSize ∣ r.start ∧ pageSize ∣ r.stop
  spare : ∀ r ∈ s.memory.free.toList.drop s.memory.freeLen, r = default
  freeLen_le : s.memory.freeLen ≤ N
  freeBytes : s.memory.freeBytes =
    (cover m₀.managedRegions \ occupied Block.span s.live).ncard
  usedBytes : s.memory.usedBytes = ∑ b ∈ s.live, b.bytes

theorem Balanced.exact (h : Balanced ms s) (hm₀ : m₀.managedRegions = ms) : Exact m₀ s := by
  obtain ⟨fs, hm, ht⟩ := h.tiles
  have hsound := h.sound ht
  have hfree : s.memory.freeRegions = fs := hm.free.take
  have hbytes : ∀ b ∈ s.live, b.span.length = b.bytes := fun b _ =>
    PhysicalMemory.pageBlock_length b.start b.pages
  have hlen := hm.free.length
  subst hm₀
  refine ⟨ht.disjoint, ?_, ?_, ?_, hm.managed.take, ?_, ?_, ?_, ?_, ?_, ?_, ?_⟩
  · intro b hb
    exact ⟨(h.blocks b hb).aligned, Nat.pos_of_ne_zero (h.blocks b hb).pages_ne⟩
  · intro b hb
    exact (h.blocks b hb).managed
  · intro b hb
    exact (h.blocks b hb).above_null
  · rw [hfree]
    exact ht.separated.apart
  · intro r
    rw [hfree]
    exact ht.mem_iff_maximal
  · intro r hr
    rw [hfree] at hr
    exact ⟨(hsound.free.pages r hr).start_aligned, (hsound.free.pages r hr).stop_aligned⟩
  · intro r hr
    rw [hm.free.toList, hlen, List.drop_left] at hr
    exact List.eq_of_mem_replicate hr
  · rw [hlen]
    exact hm.free.le
  · rw [hm.freeBytes, ← ht.cover, ht.separated.ncard_cover]
  · have harea := ht.ncard_area
    rw [hsound.managed.separated.ncard_cover, Finset.sum_congr rfl hbytes] at harea
    unfold PhysicalMemory.usedBytes
    rw [hm.totalBytes, hm.freeBytes, harea, Nat.add_sub_cancel_left]

/-- **The physical-memory ledger.** For every accepted map and every run in
which successful frees return live blocks, the books are exact; the live
blocks determine the allocator state; and with nothing live it is the state
`new` produced. -/
theorem reachable_exact {regions : List Region} {m₀ : PhysicalMemory N}
    (hnew : PhysicalMemory.new regions = .ok m₀) :
    (∀ s, Reachable m₀ s → Exact m₀ s) ∧
    (∀ s s', Reachable m₀ s → Reachable m₀ s' → s.live = s'.live → s.memory = s'.memory) ∧
    (∀ s, Reachable m₀ s → s.live = ∅ → s.memory = m₀) := by
  obtain ⟨ms, hm, hms⟩ := PhysicalMemory.new_shows hnew
  refine ⟨?_, ?_, ?_⟩
  · intro s hs
    exact (hs.balanced hm hms).exact hm.managed.take
  · intro s s' hs hs' hlive
    exact (hs.balanced hm hms).memory_unique (hs'.balanced hm hms) hlive
  · intro s hs hempty
    exact (hs.balanced hm hms).memory_unique (balanced_init hm hms) hempty

/-- The ledger of one region of eight pages, after one frame is taken. -/
theorem reachable_exact_eightPages : ∃ m₀ : PhysicalMemory 2,
    PhysicalMemory.new [⟨4096, 36864⟩] = .ok m₀ ∧
    Exact m₀ ((⟨m₀, ∅⟩ : Ledger 2).perform .allocateFrame) ∧
    ((⟨m₀, ∅⟩ : Ledger 2).perform .allocateFrame).live = {⟨4096, 1⟩} := by
  have hnew : PhysicalMemory.new [⟨4096, 36864⟩] = .ok (⟨#v[⟨4096, 36864⟩, ⟨0, 0⟩], 1,
      #v[⟨4096, 36864⟩, ⟨0, 0⟩], 1, 32768, 32768⟩ : PhysicalMemory 2) := by decide +kernel
  refine ⟨_, hnew, ?_, by decide +kernel⟩
  exact (reachable_exact hnew).1 _ (.step .init trivial)

end Ledger

end GenericKernel.Mm
