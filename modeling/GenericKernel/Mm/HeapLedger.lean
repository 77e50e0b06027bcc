import GenericKernel.Lib.Ledger
import GenericKernel.Lib.Transition
import GenericKernel.Mm.HeapLogic

/-!
# The kernel-heap ledger

A heap ledger pairs the heap with the blocks it has handed out. Callers of
`GlobalAlloc` return a block with its own address and layout (`Permitted`).
Under that obligation the live blocks and the free list tile the heap area
after every call that does not panic, and a call panics exactly when it returns
an isolated block into a full table (`HasRoom`).
-/

namespace GenericKernel.Mm

open GenericKernel.Lib

/-- A block handed out by the heap, with the layout it was requested with. -/
structure HeapBlock where
  address : Nat
  layout : Layout
  deriving DecidableEq

namespace HeapBlock

/-- Bytes of the block, `max(size, 1)`. -/
def bytes (b : HeapBlock) : Nat := b.layout.bytes

def span (b : HeapBlock) : Span := ⟨b.address, b.address + b.layout.bytes⟩

theorem span_nonempty (b : HeapBlock) : b.span.start < b.span.stop := by
  have := b.layout.bytes_pos
  show b.address < b.address + b.layout.bytes
  omega

theorem length_span (b : HeapBlock) : b.span.length = b.bytes := Nat.add_sub_cancel_left _ _

end HeapBlock

/-- The calls of the heap. -/
inductive HeapCall
  | allocate (layout : Layout)
  | deallocate (start : Nat) (layout : Layout)

/-- The heap together with the blocks that are live. -/
structure HeapLedger where
  heap : HeapState
  live : Finset HeapBlock

variable {s s' : HeapLedger} {start : Nat} {area : Range}

namespace HeapLedger

/-- Perform one call and keep the books. -/
def perform (s : HeapLedger) : HeapCall → Except HeapPanic HeapLedger
  | .allocate layout =>
      match s.heap.allocate layout with
      | .error panic => .error panic
      | .ok (none, heap) => .ok ⟨heap, s.live⟩
      | .ok (some address, heap) => .ok ⟨heap, insert ⟨address, layout⟩ s.live⟩
  | .deallocate start layout =>
      match s.heap.deallocate start layout with
      | .error panic => .error panic
      | .ok heap => .ok ⟨heap, s.live.erase ⟨start, layout⟩⟩

/-- The obligation of `GlobalAlloc::dealloc`: the block is live, under the
address and layout it was allocated with. -/
def Permitted (s : HeapLedger) : HeapCall → Prop
  | .allocate _ => True
  | .deallocate start layout => ⟨start, layout⟩ ∈ s.live

/-- A slot for the returned block: a free one, or a neighbour to merge with. -/
def HasRoom (s : HeapLedger) : HeapCall → Prop
  | .allocate _ => True
  | .deallocate start layout =>
      s.heap.freeLen < maxFreeRanges ∨
        Touches s.heap.freeRanges (HeapBlock.span ⟨start, layout⟩)

/-- The ledgers reachable by calls that do not panic. -/
inductive Reachable (h₀ : HeapState) : HeapLedger → Prop
  | init : Reachable h₀ ⟨h₀, ∅⟩
  | step {s s' : HeapLedger} {call : HeapCall} : Reachable h₀ s → s.Permitted call →
      s.perform call = .ok s' → Reachable h₀ s'

/-- The ledger after a call that does not panic. -/
def next (s : HeapLedger) (call : HeapCall) : Option HeapLedger := (s.perform call).toOption

theorem next_eq_some {call : HeapCall} : s.next call = some s' ↔ s.perform call = .ok s' := by
  unfold next
  cases s.perform call with
  | error panic => exact ⟨nofun, nofun⟩
  | ok s₁ => exact ⟨fun h => congrArg _ (Option.some.inj h), fun h => congrArg _ (Except.ok.inj h)⟩

/-- The invariant behind the ledger: the live blocks are aligned, and together
with the free list they tile the area. -/
structure Balanced (area : Range) (s : HeapLedger) : Prop where
  below_word : area.stop < wordSize
  aligned : ∀ b ∈ s.live, b.layout.align ∣ b.address
  tiles : ∃ fs, s.heap.Shows area fs ∧ Tiles HeapBlock.span area.points s.live fs

theorem balanced_init {size : Nat} {h₀ : HeapState}
    (hinit : HeapState.empty.init start size = .ok h₀) :
    Balanced ⟨start, start + size⟩ ⟨h₀, ∅⟩ := by
  obtain ⟨hs, hsize, hword⟩ := HeapState.init_shows hinit
  have hsep : Separated [(⟨start, start + size⟩ : Range)] :=
    Separated.singleton (show start < start + size by omega)
  have htiles : Tiles HeapBlock.span _ ∅ _ := Tiles.init hsep
  rw [cover_cons, cover_nil, Set.union_empty] at htiles
  exact ⟨hword, by simp, _, hs, htiles⟩

/-- An allocation does not panic and keeps the ledger balanced. -/
theorem Balanced.allocate (h : Balanced area s) (layout : Layout) :
    ∃ s', s.perform (.allocate layout) = .ok s' ∧ Balanced area s' := by
  obtain ⟨fs, hs, ht⟩ := h.tiles
  rcases HeapState.allocate_cases hs layout with hnone | ⟨b, fs', h', hok, hcarved, hs'⟩
  · refine ⟨s, ?_, h⟩
    simp only [perform, hnone]
  · refine ⟨⟨h', insert ⟨b.start, layout⟩ s.live⟩, ?_, h.below_word, ?_, fs', hs', ?_⟩
    · simp only [perform, hok]
    · intro a ha
      rcases Finset.mem_insert.mp ha with rfl | ha
      · exact hcarved.aligned
      · exact h.aligned a ha
    · obtain ⟨l₁, r, l₂, rfl, hl, hr, rfl⟩ := hcarved.carve
      have hspan : HeapBlock.span ⟨b.start, layout⟩ = b := by
        show (⟨b.start, b.start + layout.bytes⟩ : Span) = b
        rw [← hcarved.size]
      have hnext := ht.carve (b := HeapBlock.mk b.start layout) (by rw [hspan]; exact hl)
        (by rw [hspan]; exact hr) (HeapBlock.span_nonempty _)
      rw [hspan] at hnext
      exact hnext

/-- Returning a live block keeps the ledger balanced if there is room for it,
and panics otherwise. -/
theorem Balanced.deallocate (h : Balanced area s) {layout : Layout}
    (hlive : s.Permitted (.deallocate start layout)) :
    (¬ s.HasRoom (.deallocate start layout) ∧
      s.perform (.deallocate start layout) = .error .metadataExhausted) ∨
    (s.HasRoom (.deallocate start layout) ∧
      ∃ s', s.perform (.deallocate start layout) = .ok s' ∧ Balanced area s') := by
  obtain ⟨fs, hs, ht⟩ := h.tiles
  have hfree : s.heap.freeRanges = fs := hs.free.take
  unfold HasRoom
  rw [hfree]
  rcases HeapState.deallocate_cases hs h.below_word ht.separated ht.cover_subset
    (b := HeapBlock.span ⟨start, layout⟩) rfl (ht.inside _ hlive) (ht.disjoint_free hlive) with
    ⟨hfull, hpanic⟩ | ⟨hroom, fs', h', hok, hs', hsep', hcover'⟩
  · refine .inl ⟨hfull, ?_⟩
    simp only [perform, hpanic]
  · refine .inr ⟨hroom, ⟨h', s.live.erase ⟨start, layout⟩⟩, ?_, h.below_word, ?_, fs', hs',
      ht.giveBack hlive hsep' hcover'⟩
    · simp only [perform, hok]
    · intro b hb
      exact h.aligned b (Finset.mem_of_mem_erase hb)

/-- **Step**: a permitted call keeps the ledger balanced if it has room, and
panics otherwise. -/
theorem Balanced.perform {area : Range} {s : HeapLedger} (h : Balanced area s)
    {call : HeapCall} (hlive : s.Permitted call) :
    (¬ s.HasRoom call ∧ s.perform call = .error .metadataExhausted) ∨
    (s.HasRoom call ∧ ∃ s', s.perform call = .ok s' ∧ Balanced area s') := by
  cases call with
  | allocate layout => exact .inr ⟨trivial, h.allocate layout⟩
  | deallocate start layout => exact h.deallocate hlive

theorem Balanced.next {call : HeapCall} (h : Balanced area s) (hlive : s.Permitted call)
    (hnext : s.next call = some s') : Balanced area s' := by
  have hstep := next_eq_some.mp hnext
  rcases h.perform hlive with ⟨_, hpanic⟩ | ⟨_, s'', hok, hbal⟩
  · rw [hstep] at hpanic
    cases hpanic
  · rw [hstep] at hok
    obtain rfl := Except.ok.inj hok
    exact hbal

/-- **Run**: every reachable ledger is balanced. -/
theorem Reachable.balanced {size : Nat} {h₀ : HeapState}
    (hinit : HeapState.empty.init start size = .ok h₀) (h : Reachable h₀ s) :
    Balanced ⟨start, start + size⟩ s := by
  induction h with
  | init => exact balanced_init hinit
  | step _ hlive hstep ih => exact ih.next hlive (next_eq_some.mpr hstep)

/-- The live blocks of a balanced ledger determine its heap. -/
theorem Balanced.heap_unique (h : Balanced area s) (h' : Balanced area s')
    (hlive : s.live = s'.live) : s.heap = s'.heap := by
  obtain ⟨fs, hs, ht⟩ := h.tiles
  obtain ⟨fs', hs', ht'⟩ := h'.tiles
  rw [← hlive] at ht'
  obtain rfl := ht.unique ht'
  exact hs.unique hs'

/-! ## What the ledger guarantees -/

/-- The books of a ledger over the heap area. -/
structure Exact (area : Range) (s : HeapLedger) : Prop where
  disjoint : ∀ a ∈ s.live, ∀ b ∈ s.live, a ≠ b → Disjoint a.span.points b.span.points
  inside : ∀ b ∈ s.live, area.start ≤ b.span.start ∧ b.span.stop ≤ area.stop
  aligned : ∀ b ∈ s.live, b.layout.align ∣ b.address
  bounds : s.heap.start = area.start ∧ s.heap.stop = area.stop
  ascending : s.heap.freeRanges.Pairwise (fun a b => a.stop < b.start)
  maximal : ∀ r, r ∈ s.heap.freeRanges ↔
    r.Maximal (area.points \ occupied HeapBlock.span s.live)
  freeLen : s.heap.freeRanges.length = s.heap.freeLen
  freeBytes : s.heap.freeBytes = totalLength s.heap.freeRanges
  balance : s.heap.freeBytes + ∑ b ∈ s.live, b.bytes = area.stop - area.start

theorem Balanced.exact (h : Balanced area s) : Exact area s := by
  obtain ⟨fs, hs, ht⟩ := h.tiles
  have hfree : s.heap.freeRanges = fs := hs.free.take
  refine ⟨ht.disjoint, ?_, h.aligned, ⟨hs.start, hs.stop⟩, ?_, ?_, ?_, ?_, ?_⟩
  · intro b hb
    have hne := b.span_nonempty
    have hfirst : b.span.start ∈ area.points := ht.inside b hb ⟨le_refl _, hne⟩
    have hlast : b.span.stop - 1 ∈ area.points := ht.inside b hb ⟨by omega, by omega⟩
    simp only [Span.mem_points] at hfirst hlast
    omega
  · rw [hfree]
    exact ht.separated.apart
  · intro r
    rw [hfree]
    exact ht.mem_iff_maximal
  · rw [hfree, hs.free.length]
  · rw [hfree]
    exact hs.freeBytes
  · have harea := ht.ncard_area
    rw [area.ncard_points, Finset.sum_congr rfl fun b _ => b.length_span] at harea
    rw [hs.freeBytes, ← harea]
    rfl

/-- **The kernel-heap ledger.** After any calls that return live blocks and do
not panic the books are exact, and once every block is back the free list is
the one range `init` installed. -/
theorem heap_reachable_exact {start size : Nat} {h₀ : HeapState}
    (hinit : HeapState.empty.init start size = .ok h₀) {s : HeapLedger} (hs : Reachable h₀ s) :
    Exact ⟨start, start + size⟩ s ∧
      (s.live = ∅ → s.heap = h₀ ∧ s.heap.freeRanges = [⟨start, start + size⟩]) := by
  have hbal := hs.balanced hinit
  refine ⟨hbal.exact, fun hempty => ?_⟩
  have hheap : s.heap = h₀ := hbal.heap_unique (balanced_init hinit) hempty
  refine ⟨hheap, ?_⟩
  rw [hheap]
  exact (HeapState.init_shows hinit).1.free.take

/-- The ledger of a heap of eight bytes, after a block of three is asked for. -/
theorem heap_reachable_exact_eightBytes : ∃ h₀ : HeapState, ∃ s : HeapLedger,
    HeapState.empty.init 64 8 = .ok h₀ ∧ Reachable h₀ s ∧ Exact ⟨64, 72⟩ s := by
  obtain ⟨h₀, hinit⟩ := HeapState.exists_init (a := 64) (n := 8) (by decide)
    (lt_wordSize (by decide))
  obtain ⟨s, hstep, _⟩ := (balanced_init hinit).allocate ⟨3, 2, by decide, by decide⟩
  have hcall : Permitted ⟨h₀, ∅⟩ (.allocate ⟨3, 2, by decide, by decide⟩) := trivial
  have hreach : Reachable h₀ s := .step .init hcall hstep
  exact ⟨h₀, s, hinit, hreach, (heap_reachable_exact hinit hreach).1⟩

/-- **Room decides.** From every accepted heap and for every run that returns
only live blocks: no assertion fails exactly when every returned block finds a
free slot or a free neighbour. -/
theorem run_ok_iff_hasRoom {start size : Nat} {h₀ : HeapState}
    (hinit : HeapState.empty.init start size = .ok h₀) (calls : List HeapCall)
    (hcalls : Along next Permitted ⟨h₀, ∅⟩ calls) :
    (∃ s, calls.foldlM perform ⟨h₀, ∅⟩ = .ok s) ↔ Along next HasRoom ⟨h₀, ∅⟩ calls := by
  have hbal := balanced_init hinit
  generalize (⟨h₀, ∅⟩ : HeapLedger) = s at hcalls hbal
  induction calls generalizing s with
  | nil => exact ⟨fun _ => trivial, fun _ => ⟨s, rfl⟩⟩
  | cons call calls ih =>
      obtain ⟨hlive, hrest⟩ := hcalls
      rw [List.foldlM_cons]
      rcases hbal.perform hlive with ⟨hfull, hpanic⟩ | ⟨hroom, s', hok, hbal'⟩
      · rw [hpanic]
        exact ⟨nofun, fun h => absurd h.1 hfull⟩
      · have hnext := next_eq_some.mpr hok
        rw [hok]
        refine (ih s' (hrest s' hnext) hbal').trans ⟨fun h => ⟨hroom, fun s'' hs'' => ?_⟩,
          fun h => h.2 s' hnext⟩
        obtain rfl := Option.some.inj (hnext.symm.trans hs'')
        exact h

/-- One block taken and returned. -/
theorem run_ok_iff_hasRoom_oneBlock : ∃ h₀ : HeapState, ∃ calls : List HeapCall,
    HeapState.empty.init 64 8 = .ok h₀ ∧ calls.length = 2 ∧ Along next Permitted ⟨h₀, ∅⟩ calls ∧
    ((∃ s, calls.foldlM perform ⟨h₀, ∅⟩ = .ok s) ↔ Along next HasRoom ⟨h₀, ∅⟩ calls) := by
  have hword : 100 < wordSize := lt_wordSize (by decide)
  obtain ⟨h₀, hinit⟩ := HeapState.exists_init (a := 64) (n := 8) (by decide) (by omega)
  obtain ⟨h₁, hok, _⟩ := HeapState.allocate_front (HeapState.init_shows hinit).1
    (b := ⟨3, 2, by decide, by decide⟩) ⟨32, rfl⟩ (by show 64 + 1 < wordSize; omega)
    (by show 64 + 3 < wordSize; omega) (by decide)
  have hcalls : Along next Permitted ⟨h₀, ∅⟩ [.allocate ⟨3, 2, by decide, by decide⟩,
      .deallocate 64 ⟨3, 2, by decide, by decide⟩] := by
    refine ⟨trivial, fun s hs => ⟨?_, fun _ _ => trivial⟩⟩
    replace hs := next_eq_some.mp hs
    simp only [perform, hok] at hs
    obtain rfl := Except.ok.inj hs
    exact Finset.mem_insert_self _ _
  exact ⟨h₀, _, hinit, rfl, hcalls, run_ok_iff_hasRoom hinit _ hcalls⟩

/-! ## A run into the full table

A heap of 513 bytes is filled with one-byte blocks; then every other block is
returned. The first 256 returned blocks take all slots, and the last one is as
isolated as they are. -/

/-- A one-byte layout. -/
def oneByte : Layout := ⟨1, 1, by decide, by decide⟩

/-- The blocks at even addresses, from `2 * m` on. -/
def returnEven (m n : Nat) : List HeapCall :=
  (List.range' m n).map fun k => .deallocate (2 * k) oneByte

/-- Fill the heap, then return the 257 blocks at even addresses. -/
def exhaustingCalls : List HeapCall :=
  List.replicate 513 (.allocate oneByte) ++ returnEven 0 257

/-- What is free when the first `i` bytes are taken. -/
def unfilled (i : Nat) : List Range := if i < 513 then [⟨i, 513⟩] else []

/-- The free list once the first `m` even bytes are back. -/
def evenBytes (m : Nat) : List Range := (List.range m).map fun k => ⟨2 * k, 2 * k + 1⟩

/-- One more byte is taken from the front. -/
theorem fill_step {i : Nat} (hi : i < 513) (hs : s.heap.Shows ⟨0, 513⟩ (unfilled i)) :
    ∃ h', s.perform (.allocate oneByte) = .ok ⟨h', insert ⟨i, oneByte⟩ s.live⟩ ∧
      h'.Shows ⟨0, 513⟩ (unfilled (i + 1)) := by
  have hword : 513 < wordSize := lt_wordSize (by decide)
  rw [unfilled, if_pos hi] at hs
  obtain ⟨h', hok, hs'⟩ := HeapState.allocate_front hs (b := oneByte) (one_dvd i)
    (by show i + 0 < wordSize; omega) (by show i + 1 < wordSize; omega)
    (by show i + 1 ≤ 513; omega)
  refine ⟨h', by simp only [perform, hok], ?_⟩
  have hrest : remainder ⟨i, 513⟩ ⟨i, i + oneByte.bytes⟩ ++ [] = unfilled (i + 1) := by
    simp only [remainder, unfilled, lt_irrefl, if_false, List.nil_append, List.append_nil]
    rfl
  rw [← hrest]
  exact hs'

/-- Filling takes the bytes in order. -/
theorem fill {s : HeapLedger} (n i : Nat) (hn : i + n ≤ 513)
    (hs : s.heap.Shows ⟨0, 513⟩ (unfilled i)) :
    ∃ s', run next s (List.replicate n (.allocate oneByte)) = some s' ∧
      Along next Permitted s (List.replicate n (.allocate oneByte)) ∧
      s'.heap.Shows ⟨0, 513⟩ (unfilled (i + n)) ∧
      (∀ b ∈ s.live, b ∈ s'.live) ∧ ∀ k, i ≤ k → k < i + n → ⟨k, oneByte⟩ ∈ s'.live := by
  induction n generalizing s i with
  | zero => exact ⟨s, rfl, trivial, hs, fun _ hb => hb, fun k _ _ => by omega⟩
  | succ n ih =>
      obtain ⟨h₁, hok, hs₁⟩ := fill_step (by omega) hs
      obtain ⟨s', hrun, halong, hs', hkeep, hnew⟩ :=
        ih (s := ⟨h₁, insert ⟨i, oneByte⟩ s.live⟩) (i + 1) (by omega) hs₁
      rw [show i + 1 + n = i + (n + 1) by omega] at hs' hnew
      have hnext := next_eq_some.mpr hok
      refine ⟨s', (run_cons hnext _).trans hrun, ⟨trivial, fun s₁ hs₁ => ?_⟩, hs', ?_, ?_⟩
      · obtain rfl := Option.some.inj (hnext.symm.trans hs₁)
        exact halong
      · intro b hb
        exact hkeep b (Finset.mem_insert_of_mem hb)
      · intro k hik hk
        rcases Nat.eq_or_lt_of_le hik with rfl | hlt
        · exact hkeep _ (Finset.mem_insert_self _ _)
        · exact hnew k hlt hk

theorem mem_cover_evenBytes {m x : Nat} : x ∈ cover (evenBytes m) ↔ ∃ k < m, x = 2 * k := by
  simp only [cover, evenBytes, List.mem_map, List.mem_range, Set.mem_ofPred_eq,
    exists_exists_and_eq_and, Span.mem_points]
  constructor
  · intro ⟨k, hk, hx⟩
    exact ⟨k, hk, by omega⟩
  · intro ⟨k, hk, hx⟩
    exact ⟨k, hk, by omega⟩

theorem evenBytes_separated (m : Nat) : Separated (evenBytes m) := by
  refine ⟨?_, ?_⟩
  · intro s hs
    obtain ⟨k, _, rfl⟩ := List.mem_map.mp hs
    exact Nat.lt_succ_self _
  · refine List.pairwise_map.mpr ((List.pairwise_lt_range).imp ?_)
    intro a b hab
    show 2 * a + 1 < 2 * b
    omega

/-- The next even byte touches none of the ones already back. -/
theorem not_touches_evenBytes (m : Nat) :
    ¬ Touches (evenBytes m) (HeapBlock.span ⟨2 * m, oneByte⟩) := by
  intro ⟨s, hs, htouch⟩
  obtain ⟨k, hk, rfl⟩ := List.mem_map.mp hs
  rw [List.mem_range] at hk
  have htouch' : 2 * k + 1 = 2 * m ∨ 2 * k = 2 * m + 1 := htouch
  omega

/-- Returning even bytes runs into the full table. -/
theorem returnEven_panics {s : HeapLedger} (n m : Nat) (hm : m + n = 256)
    (hbal : Balanced ⟨0, 513⟩ s) (hs : s.heap.Shows ⟨0, 513⟩ (evenBytes m))
    (hlive : ∀ k, m ≤ k → k < 257 → ⟨2 * k, oneByte⟩ ∈ s.live) :
    (returnEven m (n + 1)).foldlM perform s = .error .metadataExhausted ∧
      Along next Permitted s (returnEven m (n + 1)) := by
  have hmem : ⟨2 * m, oneByte⟩ ∈ s.live := hlive m (le_refl _) (by omega)
  have hlen : s.heap.freeLen = m := by
    rw [hs.free.length, evenBytes, List.length_map, List.length_range]
  have hhead : returnEven m (n + 1) =
      .deallocate (2 * m) oneByte :: returnEven (m + 1) n := by
    rw [returnEven, List.range'_succ, List.map_cons]
    rfl
  rw [hhead, List.foldlM_cons]
  obtain ⟨fs, hs₀, ht⟩ := hbal.tiles
  obtain rfl : fs = evenBytes m := hs₀.free.take.symm.trans hs.free.take
  rcases HeapState.deallocate_cases hs hbal.below_word ht.separated ht.cover_subset
    (b := HeapBlock.span ⟨2 * m, oneByte⟩) rfl (ht.inside _ hmem) (ht.disjoint_free hmem) with
    ⟨_, hpanic⟩ | ⟨hroom, fs', h', hok, hs', hsep', hcover'⟩
  · have hstep : s.perform (.deallocate (2 * m) oneByte) = .error .metadataExhausted := by
      simp only [perform, hpanic]
    refine ⟨by rw [hstep]; rfl, hmem, fun s' hs' => ?_⟩
    rw [next_eq_some, hstep] at hs'
    cases hs'
  · have hlt : m < 256 := by
      rcases hroom with hlt | htouch
      · rw [hlen] at hlt
        exact hlt
      · exact absurd htouch (not_touches_evenBytes m)
    have hstep : s.perform (.deallocate (2 * m) oneByte) =
        .ok ⟨h', s.live.erase ⟨2 * m, oneByte⟩⟩ := by
      simp only [perform, hok]
    obtain rfl : fs' = evenBytes (m + 1) := by
      refine hsep'.ext (evenBytes_separated _) ?_
      ext x
      have hpoint : x ∈ (HeapBlock.span ⟨2 * m, oneByte⟩).points ↔ x = 2 * m := by
        show 2 * m ≤ x ∧ x < 2 * m + 1 ↔ x = 2 * m
        omega
      rw [hcover', Set.mem_union, mem_cover_evenBytes, mem_cover_evenBytes, hpoint]
      constructor
      · intro h
        rcases h with ⟨k, hk, hx⟩ | hx
        · exact ⟨k, by omega, hx⟩
        · exact ⟨m, by omega, hx⟩
      · intro ⟨k, hk, hx⟩
        rcases Nat.lt_or_ge k m with hkm | hkm
        · exact .inl ⟨k, hkm, hx⟩
        · exact .inr (by omega)
    cases n with
    | zero => omega
    | succ n =>
        have hrest : ∀ k, m + 1 ≤ k → k < 257 →
            ⟨2 * k, oneByte⟩ ∈ s.live.erase ⟨2 * m, oneByte⟩ := by
          intro k hmk hk
          refine Finset.mem_erase.mpr ⟨?_, hlive k (by omega) hk⟩
          intro heq
          have := congrArg HeapBlock.address heq
          simp only at this
          omega
        have hbal' : Balanced ⟨0, 513⟩ ⟨h', s.live.erase ⟨2 * m, oneByte⟩⟩ :=
          ⟨hbal.below_word, fun b hb => hbal.aligned b (Finset.mem_of_mem_erase hb), _, hs',
            ht.giveBack hmem hsep' hcover'⟩
        obtain ⟨hrun, halong⟩ := returnEven_panics n (m + 1) (by omega) hbal' hs' hrest
        refine ⟨by rw [hstep]; exact hrun, hmem, fun s₁ hs₁ => ?_⟩
        rw [next_eq_some, hstep] at hs₁
        obtain rfl := Except.ok.inj hs₁
        exact halong

/-- Returning a live block into a full table panics: every call of the run
meets its obligation, and the last one stops the kernel. -/
theorem exhaustingCalls_panics : ∃ h₀, HeapState.empty.init 0 513 = .ok h₀ ∧
    Along next Permitted ⟨h₀, ∅⟩ exhaustingCalls ∧
    exhaustingCalls.foldlM perform ⟨h₀, ∅⟩ = .error .metadataExhausted := by
  obtain ⟨h₀, hinit⟩ := HeapState.exists_init (a := 0) (n := 513) (by decide)
    (lt_wordSize (by decide))
  obtain ⟨s, hrun, halong, hs, _, hlive⟩ := fill (s := ⟨h₀, ∅⟩) 513 0 (by omega)
    (HeapState.init_shows hinit).1
  have hbal : Balanced ⟨0, 513⟩ s := run_invariant (fun _ _ _ h hP hnext => h.next hP hnext)
    (balanced_init hinit) halong hrun
  obtain ⟨hpanic, hreturn⟩ := returnEven_panics 256 0 rfl hbal hs
    (fun k _ hk => hlive (2 * k) (Nat.zero_le _) (by omega))
  refine ⟨h₀, hinit, halong.append hrun hreturn, ?_⟩
  have hfilled := (run_toOption perform _ _).symm.trans hrun
  rw [exhaustingCalls, List.foldlM_append]
  cases hfill : (List.replicate 513 (HeapCall.allocate oneByte)).foldlM perform ⟨h₀, ∅⟩ with
  | error panic =>
      rw [hfill] at hfilled
      cases hfilled
  | ok s' =>
      rw [hfill] at hfilled
      obtain rfl := Option.some.inj hfilled
      exact hpanic

end HeapLedger

end GenericKernel.Mm
