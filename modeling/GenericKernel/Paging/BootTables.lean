import GenericKernel.Mm.PhysicalFrames
import GenericKernel.Paging.CloneLogic

/-!
# The boot-time table memory (`BootTables` in `kernel/src/arch/memory.rs`)

Tables are physical frames of the memory manager, reached through the direct
map at `offset`. Frames are page aligned, so the words of different frames do
not overlap and contents are kept by frame. Every `assert`, every `expect` and
the check inside `VirtAddr::new` is a panic of the model.

* **the adapter** — `pointer`, `zeroPhysicalFrame`, `handler`;
* **simulation** — `Follows` relates the adapter to the clone's view: the frames
  the clone holds are live blocks of the manager, and the next frame is the
  lowest free page (`refines`);
* **capacity** — a frame goes back exactly when the free set it completes has at
  most `N` maximal intervals (`bootRoom`).
-/

namespace GenericKernel.Paging

open GenericKernel.Lib GenericKernel.Mm

inductive BootPanic
  | expect (message : String)
  | assertion
  | notCanonical
  deriving DecidableEq, Repr

/-- What `release` panics with. -/
def BootPanic.rollback : BootPanic := .expect "table rollback failed"

structure BootTables (N : Nat) where
  offset : Nat
  pmm : PhysicalMemory N
  words : Words

namespace BootTables

variable {N : Nat}

/-- Bits 47 to 63 are equal. -/
def Canonical (address : Nat) : Prop := address < 2 ^ 47 ∨ 2 ^ 64 - 2 ^ 47 ≤ address

instance (address : Nat) : Decidable (Canonical address) := inferInstanceAs (Decidable (_ ∨ _))

/-- `offset.checked_add(physical).expect(message)`, then `VirtAddr::new`. -/
def directMap (offset : Nat) (physical : UInt64) (message : String) : Except BootPanic Nat :=
  match checkedAdd offset physical.toNat with
  | none => .error (.expect message)
  | some address => if Canonical address then .ok address else .error .notCanonical

def pointer (self : BootTables N) (physical : UInt64) (index : Nat) : Except BootPanic Nat :=
  if index < 512 then
    (directMap self.offset physical "table direct-map overflow").map (· + 8 * index)
  else .error .assertion

/-- The contents after `zero_physical_frame`. -/
def zeroPhysicalFrame (offset : Nat) (physical : UInt64) (words : Words) :
    Except BootPanic Words :=
  (directMap offset physical "physical direct-map address overflow").map fun _ f =>
    if f = physical then fun _ => 0 else words f

/-- The `TableMemory` methods. `allocate` drops an allocator error
(`.ok().flatten()?`). -/
def handler : Handler TableOp.Reply (BootTables N) BootPanic := fun op self =>
  match op with
  | .allocate =>
      match self.pmm.allocateFrame with
      | (.ok (some frame), pmm) =>
          (zeroPhysicalFrame self.offset (UInt64.ofNat frame) self.words).map fun words =>
            (some (UInt64.ofNat frame), { self with pmm := pmm, words := words })
      | (_, pmm) => .ok (none, { self with pmm := pmm })
  | .release frame =>
      match self.pmm.freePages frame.toNat 1 with
      | (.ok _, pmm) => .ok ((), { self with pmm := pmm })
      | (.error _, _) => .error .rollback
  | .read frame index =>
      (self.pointer frame index).map fun _ => (self.words frame index, self)
  | .write frame index entry =>
      (self.pointer frame index).map fun _ => ((), { self with
        words := fun f i => if f = frame ∧ i = index then entry else self.words f i })

/-- A frame that the direct map reaches. -/
def Mapped (offset : Nat) (frame : UInt64) : Prop :=
  offset + frame.toNat < wordSize ∧ Canonical (offset + frame.toNat)

theorem directMap_of_mapped {offset : Nat} {frame : UInt64} (h : Mapped offset frame)
    (message : String) : directMap offset frame message = .ok (offset + frame.toNat) := by
  unfold directMap
  rw [checkedAdd_eq_some.mpr ⟨rfl, h.1⟩]
  exact if_pos h.2

theorem pointer_of_mapped {self : BootTables N} {frame : UInt64} (h : Mapped self.offset frame)
    {index : Nat} (hindex : index < 512) :
    self.pointer frame index = .ok (self.offset + frame.toNat + 8 * index) := by
  unfold pointer
  rw [if_pos hindex, directMap_of_mapped h]
  rfl

theorem zeroPhysicalFrame_of_mapped {offset : Nat} {frame : UInt64} (h : Mapped offset frame)
    (words : Words) : zeroPhysicalFrame offset frame words =
      .ok fun f => if f = frame then fun _ => 0 else words f := by
  unfold zeroPhysicalFrame
  rw [directMap_of_mapped h]
  rfl

/-! ## Frames as blocks of the memory manager -/

/-- A frame as a block of one page. -/
def frameBlock (frame : UInt64) : Block := ⟨frame.toNat, 1⟩

theorem frameBlock_inj {f g : UInt64} (h : frameBlock f = frameBlock g) : f = g :=
  UInt64.toNat_inj.mp (Block.mk.inj h).1

/-- The bytes of a list of frames. -/
def frameBytes (frames : List UInt64) : Set Nat :=
  {x | ∃ f ∈ frames, x ∈ (frameBlock f).span.points}

theorem frameBytes_congr {l l' : List UInt64} (h : ∀ f, f ∈ l ↔ f ∈ l') :
    frameBytes l = frameBytes l' := by
  unfold frameBytes
  simp only [h]

/-- The frames a clone holds. -/
def held (replies : List (Option UInt64)) (released : List UInt64) : List UInt64 :=
  (replies.filterMap id).filter fun f => f ∉ released

theorem mem_held {v : View} {f : UInt64} : f ∈ held v.replies v.released ↔ v.Owned f := by
  unfold held View.Owned View.allocated
  rw [List.mem_filter, decide_eq_true_eq]

/-- The blocks of the frames a clone holds. -/
def heldBlocks (v : View) : Finset Block :=
  ((held v.replies v.released).map frameBlock).toFinset

theorem mem_heldBlocks {v : View} {b : Block} :
    b ∈ heldBlocks v ↔ ∃ f, v.Owned f ∧ frameBlock f = b := by
  unfold heldBlocks
  rw [List.mem_toFinset, List.mem_map]
  simp only [mem_held]

theorem occupied_heldBlocks (v : View) :
    occupied Block.span (heldBlocks v) = frameBytes (held v.replies v.released) := by
  ext x
  unfold occupied frameBytes
  simp only [Set.mem_ofPred_eq, mem_heldBlocks, mem_held]
  constructor
  · intro ⟨b, ⟨f, hf, hb⟩, hx⟩
    exact ⟨f, hf, hb ▸ hx⟩
  · intro ⟨f, hf, hx⟩
    exact ⟨frameBlock f, ⟨f, hf, rfl⟩, hx⟩

/-- The frames that successive allocations return. -/
def supply (free : List Region) (n : Nat) : Option UInt64 :=
  (freePageList free)[n]?.map UInt64.ofNat

/-- Whether a frame can go back: the bytes of `free` without the frames still
held have at most `N` maximal intervals. -/
def bootRoom (N : Nat) (free : List Region) : Room := fun replies released frame =>
  (leftEnds (cover free \ frameBytes (held replies (released ++ [frame])))).ncard ≤ N

/-! ## Simulation -/

/-- The adapter as the clone sees it, from the live blocks `live` and the free
list `free` at the start. -/
structure Follows (ms free : List Region) (live : Finset Block) (offset : Nat)
    (c : BootTables N) (v : View) : Prop where
  offset_eq : c.offset = offset
  words_eq : c.words = v.words
  balanced : Ledger.Balanced ms ⟨c.pmm, live ∪ heldBlocks v⟩
  fresh : ∀ f, v.Owned f → frameBlock f ∉ live
  agrees : Agrees (supply free) v
  pages : v.released = [] →
    freePageList c.pmm.freeRegions = (freePageList free).drop v.replies.length

/-- Everything the adapter may touch is mapped, and the tables of the source
are not free memory. -/
structure Reserved (free : List Region) (offset : Nat) (tables : Set UInt64) : Prop where
  reserved : ∀ f ∈ tables, f.toNat ∉ cover free
  mappedTables : ∀ f ∈ tables, Mapped offset f
  mappedFree : ∀ page ∈ freePageList free, Mapped offset (UInt64.ofNat page)

section Simulation

variable {ms free : List Region} {live : Finset Block} {offset : Nat} {tables : Set UInt64}
  {c : BootTables N} {v v' : View}

/-- A frame handed out is one of the supply. -/
theorem exists_page_of_allocated (h : Agrees (supply free) v) {f : UInt64}
    (hf : f ∈ v.allocated) : ∃ page ∈ freePageList free, UInt64.ofNat page = f := by
  unfold View.allocated at hf
  rw [List.mem_filterMap] at hf
  obtain ⟨r, hr, rfl⟩ := hf
  obtain ⟨i, hi⟩ := List.getElem?_of_mem hr
  have hsupply := h i (some f) hi
  unfold supply at hsupply
  rw [Option.map_eq_some_iff] at hsupply
  obtain ⟨page, hpage, heq⟩ := hsupply
  exact ⟨page, List.mem_of_getElem? hpage, heq⟩

theorem Reserved.mapped (h : Reserved free offset tables) (hagrees : Agrees (supply free) v)
    {f : UInt64} (hf : f ∈ tables ∨ v.Owned f) : Mapped offset f := by
  rcases hf with hf | hf
  · exact h.mappedTables f hf
  · obtain ⟨page, hpage, rfl⟩ := exists_page_of_allocated hagrees hf.1
    exact h.mappedFree page hpage

/-- The free bytes of the adapter, in terms of the start. -/
theorem cover_diff_held (hfree : Tiles Block.span (cover ms) live free) (v : View) :
    cover ms \ occupied Block.span (live ∪ heldBlocks v) =
      cover free \ frameBytes (held v.replies v.released) := by
  rw [occupied_union, occupied_heldBlocks, hfree.cover, Set.sdiff_sdiff]

/-- Taking a frame out of the books. -/
theorem erase_heldBlocks {frame : UInt64} (hfresh : frameBlock frame ∉ live)
    (hreplies : v'.replies = v.replies) (hreleased : v'.released = v.released ++ [frame]) :
    (live ∪ heldBlocks v).erase (frameBlock frame) = live ∪ heldBlocks v' := by
  have howned : ∀ f, v'.Owned f ↔ v.Owned f ∧ f ≠ frame := fun f =>
    View.owned_release hreplies hreleased
  ext b
  rw [Finset.mem_erase, Finset.mem_union, Finset.mem_union, mem_heldBlocks, mem_heldBlocks]
  constructor
  · intro ⟨hne, hb⟩
    rcases hb with hb | ⟨f, hf, rfl⟩
    · exact .inl hb
    · exact .inr ⟨f, (howned f).mpr ⟨hf, fun heq => hne (heq ▸ rfl)⟩, rfl⟩
  · intro hb
    rcases hb with hb | ⟨f, hf, rfl⟩
    · exact ⟨fun heq => hfresh (heq ▸ hb), .inl hb⟩
    · obtain ⟨hf, hne⟩ := (howned f).mp hf
      exact ⟨fun heq => hne (frameBlock_inj heq), .inr ⟨f, hf, rfl⟩⟩

/-- Entering a frame into the books. -/
theorem insert_heldBlocks {frame : UInt64} (hstart : v.released = [])
    (hreplies : v'.replies = v.replies ++ [some frame]) (hreleased : v'.released = v.released) :
    insert (frameBlock frame) (live ∪ heldBlocks v) = live ∪ heldBlocks v' := by
  have howned : ∀ f, v'.Owned f ↔ f = frame ∨ v.Owned f := fun f =>
    View.owned_allocate hreplies hreleased hstart
  ext b
  rw [Finset.mem_insert, Finset.mem_union, Finset.mem_union, mem_heldBlocks, mem_heldBlocks]
  constructor
  · intro hb
    rcases hb with rfl | hb | ⟨f, hf, rfl⟩
    · exact .inr ⟨frame, (howned frame).mpr (.inl rfl), rfl⟩
    · exact .inl hb
    · exact .inr ⟨f, (howned f).mpr (.inr hf), rfl⟩
  · intro hb
    rcases hb with hb | ⟨f, hf, rfl⟩
    · exact .inr (.inl hb)
    · rcases (howned f).mp hf with rfl | hf
      · exact .inl rfl
      · exact .inr (.inr ⟨f, hf, rfl⟩)

/-- A refused allocation leaves the books as they are. -/
theorem heldBlocks_refused (hreplies : v'.replies = v.replies ++ [none])
    (hreleased : v'.released = v.released) : heldBlocks v' = heldBlocks v := by
  unfold heldBlocks held
  rw [hreplies, hreleased, List.filterMap_append]
  simp

/-- `allocate` hands out the lowest free page. -/
theorem refines_allocate (hreserved : Reserved free offset tables)
    (hfree : Tiles Block.span (cover ms) live free) (h : Follows ms free live offset c v)
    (hstart : v.released = []) :
    ∃ reply c' v', handler .allocate c = .ok (reply, c') ∧
      (viewSpec tables (bootRoom N free) BootPanic).post v .allocate reply v' ∧
      Follows ms free live offset c' v' := by
  obtain ⟨fs, hm, ht⟩ := h.balanced.tiles
  have hsound := h.balanced.sound ht
  have hpages := h.pages hstart
  have hcurrent : c.pmm.freeRegions = fs := hm.free.take
  rw [hcurrent] at hpages
  have hnext : supply free v.replies.length = (freePageList fs)[0]?.map UInt64.ofNat := by
    unfold supply
    rw [hpages, List.getElem?_drop, Nat.add_zero]
  cases fs with
  | nil =>
      -- nothing is free, and nothing changes
      have hnone := PhysicalMemory.allocateFrame_nil hm
      let v' : View := { v with replies := v.replies ++ [none] }
      refine ⟨none, { c with pmm := c.pmm }, v', ?_, ⟨rfl, rfl, rfl⟩, h.offset_eq, h.words_eq,
        ?_, ?_, h.agrees.append rfl hnext, ?_⟩
      · simp only [handler, hnone]
      · rw [@heldBlocks_refused v v' rfl rfl]
        exact h.balanced
      · intro f hf
        refine h.fresh f ?_
        unfold View.Owned View.allocated at hf ⊢
        simpa [v'] using hf
      · intro _
        rw [hcurrent]
        show [] = (freePageList free).drop (v.replies ++ [none]).length
        rw [List.length_append, ← List.drop_drop, ← hpages]
        rfl
  | cons r fs =>
      have hrpage := hsound.free.pages r List.mem_cons_self
      have hrne := hsound.free.separated.nonempty r List.mem_cons_self
      obtain ⟨_, hfirst⟩ := PhysicalMemory.regionPages_eq_cons hrpage hrne
      obtain ⟨m', hok, hm'⟩ := PhysicalMemory.allocateFrame_cons hm hrpage hrne
      have hword : r.start < 2 ^ 64 := by
        have := hrpage.below_word
        rw [wordSize] at this
        omega
      have hnat : (UInt64.ofNat r.start).toNat = r.start := UInt64.toNat_ofNat_of_lt' hword
      have hlist : freePageList (r :: fs) = r.start ::
          freePageList (remainder r ⟨r.start, r.start + pageSize⟩ ++ fs) := by
        rw [PhysicalMemory.freePageList_cons, hfirst, List.cons_append]
        exact congrArg _ List.flatMap_append.symm
      have hbyte : r.start ∈ cover (r :: fs) := ⟨r, List.mem_cons_self, le_refl _, hrne⟩
      have hin : r.start ∈ freePageList free := by
        refine List.mem_of_mem_drop (i := v.replies.length) ?_
        rw [← hpages, hlist]
        exact List.mem_cons_self
      have hfresh : ∀ b ∈ live ∪ heldBlocks v, b ≠ frameBlock (UInt64.ofNat r.start) := by
        intro b hb heq
        refine Set.disjoint_left.mp (ht.disjoint_free hb) hbyte ?_
        rw [heq, frameBlock, hnat]
        have hpos : 0 < 1 * pageSize := by decide
        exact ⟨le_refl _, Nat.lt_add_of_pos_right hpos⟩
      have hnotOwned : ¬ v.Owned (UInt64.ofNat r.start) := fun hf =>
        hfresh _ (Finset.mem_union_right _ (mem_heldBlocks.mpr ⟨_, hf, rfl⟩)) rfl
      have hnotTable : UInt64.ofNat r.start ∉ tables := by
        intro hmem
        refine hreserved.reserved _ hmem ?_
        rw [hnat]
        have hcover := ht.cover.trans (cover_diff_held hfree v)
        exact (hcover ▸ hbyte).1
      let v' : View := ⟨fun f => if f = UInt64.ofNat r.start then fun _ => 0 else v.words f,
        v.replies ++ [some (UInt64.ofNat r.start)], v.released⟩
      refine ⟨some (UInt64.ofNat r.start), ⟨c.offset, m', v'.words⟩, v', ?_,
        ⟨rfl, rfl, hnotTable, hnotOwned, fun f hf => if_neg hf⟩, h.offset_eq, rfl, ?_, ?_,
        h.agrees.append rfl ?_, ?_⟩
      · have hmapped : Mapped c.offset (UInt64.ofNat r.start) := by
          rw [h.offset_eq]
          exact hreserved.mappedFree _ hin
        simp only [handler, hok, zeroPhysicalFrame_of_mapped hmapped, h.words_eq]
        rfl
      · have hbal := h.balanced.allocatePages 1 1
        have hcall : c.pmm.allocatePages 1 1 = (.ok (some r.start), m') := hok
        rw [hcall] at hbal
        rw [← @insert_heldBlocks live v v' _ hstart rfl rfl, frameBlock, hnat]
        exact hbal
      · intro f hf
        rcases (@View.owned_allocate v v' _ f rfl rfl hstart).mp hf with rfl | hf
        · intro hmem
          exact hfresh _ (Finset.mem_union_left _ hmem) rfl
        · exact h.fresh f hf
      · rw [hnext, hlist]
        rfl
      · intro _
        have hcurrent' : m'.freeRegions = _ := hm'.free.take
        show freePageList m'.freeRegions =
          (freePageList free).drop (v.replies ++ [some (UInt64.ofNat r.start)]).length
        rw [hcurrent', List.length_append, ← List.drop_drop, ← hpages, hlist]
        rfl

/-- `release` succeeds exactly where there is room. -/
theorem refines_release (hfree : Tiles Block.span (cover ms) live free)
    (h : Follows ms free live offset c v) {frame : UInt64} (howned : v.Owned frame) :
    (bootRoom N free v.replies v.released frame ∧
      ∃ c', handler (.release frame) c = .ok ((), c') ∧
        Follows ms free live offset c' { v with released := v.released ++ [frame] }) ∨
    (¬ bootRoom N free v.replies v.released frame ∧
      handler (.release frame) c = .error .rollback) := by
  obtain ⟨fs, hm, ht⟩ := h.balanced.tiles
  let v' : View := { v with released := v.released ++ [frame] }
  have hmem : frameBlock frame ∈ live ∪ heldBlocks v :=
    Finset.mem_union_right _ (mem_heldBlocks.mpr ⟨frame, howned, rfl⟩)
  have herase : (live ∪ heldBlocks v).erase (frameBlock frame) = live ∪ heldBlocks v' :=
    erase_heldBlocks (h.fresh frame howned) rfl rfl
  have hgrown : cover fs ∪ (frameBlock frame).span.points =
      cover free \ frameBytes (held v.replies (v.released ++ [frame])) := by
    rw [ht.cover_union hmem, herase]
    exact cover_diff_held hfree v'
  rcases PhysicalMemory.freePages_live h.balanced hm ht hmem with
    ⟨hroom, m', hok, hbal⟩ | ⟨hroom, e, herr⟩
  · rw [hgrown] at hroom
    refine .inl ⟨hroom, { c with pmm := m' }, ?_, h.offset_eq, h.words_eq, herase ▸ hbal, ?_,
      h.agrees, ?_⟩
    · have hcall : c.pmm.freePages frame.toNat 1 = (.ok (), m') := hok
      simp only [handler, hcall]
    · intro f hf
      exact h.fresh f ((@View.owned_release v v' frame f rfl rfl).mp hf).1
    · intro hnil
      exact absurd hnil (by simp)
  · rw [hgrown] at hroom
    refine .inr ⟨hroom, ?_⟩
    have hcall : c.pmm.freePages frame.toNat 1 = (.error e, c.pmm) := herr
    simp only [handler, hcall]

/-- **The adapter simulates the clone's view**, and the only panic is the one of
`release`. -/
theorem refines (hreserved : Reserved free offset tables)
    (hfree : Tiles Block.span (cover ms) live free) :
    Refines (handler (N := N))
      ((viewSpec tables (bootRoom N free) BootPanic).panics (· = .rollback))
      (Follows ms free live offset) := by
  intro c v op h hpre
  cases op with
  | allocate => exact .inl (refines_allocate hreserved hfree h hpre)
  | release frame =>
      rcases refines_release hfree h hpre with ⟨hroom, c', hok, hfollows⟩ | ⟨hroom, herr⟩
      · exact .inl ⟨(), c', { v with released := v.released ++ [frame] }, hok,
          ⟨hroom, rfl, rfl, fun _ _ => rfl⟩, hfollows⟩
      · exact .inr ⟨.rollback, herr, hroom, rfl⟩
  | read frame index =>
      have hmapped : Mapped c.offset frame := h.offset_eq ▸ hreserved.mapped h.agrees hpre.1
      refine .inl ⟨c.words frame index, c, v, ?_, ⟨?_, rfl⟩, h⟩
      · simp only [handler, pointer_of_mapped hmapped hpre.2]
        rfl
      · rw [h.words_eq]
  | write frame index entry =>
      have hmapped : Mapped c.offset frame :=
        h.offset_eq ▸ hreserved.mapped h.agrees (.inr hpre.1)
      refine .inl ⟨(), ⟨c.offset, c.pmm, (v.set frame index entry).words⟩,
        v.set frame index entry, ?_, rfl, h.offset_eq, rfl, h.balanced, h.fresh, h.agrees,
        h.pages⟩
      simp only [handler, pointer_of_mapped hmapped hpre.2, h.words_eq]
      rfl

end Simulation

end BootTables

end GenericKernel.Paging
