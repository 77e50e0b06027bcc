import GenericKernel.Paging.BootTables

/-!
# Rolling a clone back into the memory manager

`clone_root` over `BootTables` gives every frame of a failed clone back with
`free_pages(frame, 1)`. Between the first and the last of them the free set is
more fragmented than before the call, and the free list has only `N` slots.
The rollback succeeds, and then restores the manager exactly, if and only if
every free set on the way has at most `N` maximal intervals (`RollbackFits`).
Children go back in allocation order, so one release may already be isolated
from the rest (`twoChildren_panics`).
-/

namespace GenericKernel.Paging.BootTables

open GenericKernel.Lib GenericKernel.Mm

variable {N : Nat}

/-- The boot contract of a clone of `source`. -/
def BootContract (c : BootTables N) (source : UInt64) : Prop :=
  Reserved c.pmm.freeRegions c.offset (sourceTables c.words 4 source)

/-- The plan of the clone, from the free pages in ascending order. -/
def bootPlan (c : BootTables N) (limit : Nat) (source : UInt64) : Plan × Nat :=
  planTable c.words (supply c.pmm.freeRegions) limit 4 source [] 0

/-- With the frames of `order` given back one by one, the free set never has
more than `N` maximal intervals. -/
def OrderFits (c : BootTables N) (order : List UInt64) : Prop :=
  ∀ p f q, order = p ++ f :: q →
    (leftEnds (cover c.pmm.freeRegions \ frameBytes q)).ncard ≤ N

/-- If the clone has to be undone, its frames fit on their way back. -/
def RollbackFits (c : BootTables N) (limit : Nat) (source : UInt64) : Prop :=
  ∀ e order n, c.bootPlan limit source = (.undone e order, n) → c.OrderFits order

/-- `clone_root` returns, and if it failed the memory manager is as before. -/
def Restores (c : BootTables N) (limit : Nat) (source : UInt64) : Prop :=
  ∃ result c', ((cloneRoot limit source).run handler c).2 = .ok (result, c') ∧
    ∀ e, result = .error e → c'.pmm = c.pmm

/-! ## Outcomes -/

/-- The frames still held once `p ++ [f]` went back are those of `q`. -/
theorem frameBytes_held {replies : List (Option UInt64)} {order fs p q : List UInt64}
    {f : UInt64} (hall : replies.filterMap id = fs) (hnodup : fs.Nodup) (hperm : order.Perm fs)
    (horder : order = p ++ f :: q) : frameBytes (held replies (p ++ [f])) = frameBytes q := by
  refine frameBytes_congr fun g => ?_
  have hmem : g ∈ fs ↔ g ∈ p ++ [f] ∨ g ∈ q := by
    rw [← hperm.mem_iff, horder]
    simp [or_assoc]
  have hsplit : (p ++ [f] ++ q).Nodup := by
    have := hperm.nodup_iff.mpr hnodup
    rw [horder] at this
    simpa using this
  have hdisj := (List.nodup_append.mp hsplit).2.2
  unfold held
  rw [List.mem_filter, hall, decide_eq_true_eq, hmem]
  constructor
  · intro ⟨hg, hnot⟩
    exact hg.resolve_left hnot
  · intro hg
    exact ⟨.inr hg, fun hback => hdisj g hback g hg rfl⟩

/-- Nothing is held at the start. -/
theorem follows_fresh {ms : List Region} {live : Finset Block} {c : BootTables N}
    (hbal : Ledger.Balanced ms ⟨c.pmm, live⟩) :
    Follows ms c.pmm.freeRegions live c.offset c (View.fresh c.words) := by
  have hempty : heldBlocks (View.fresh c.words) = ∅ := rfl
  refine ⟨rfl, rfl, ?_, ?_, ?_, fun _ => rfl⟩
  · rw [hempty, Finset.union_empty]
    exact hbal
  · intro f hf
    exact absurd hf.1 List.not_mem_nil
  · intro i r hi
    cases hi

/-- Once everything has gone back, the manager is as before. -/
theorem Follows.restored {ms free : List Region} {live : Finset Block} {offset : Nat}
    {m : PhysicalMemory N} (hbal : Ledger.Balanced ms ⟨m, live⟩) {c' : BootTables N} {v' : View}
    (h : Follows ms free live offset c' v') (hnone : ∀ f, ¬ v'.Owned f) : c'.pmm = m := by
  have hempty : heldBlocks v' = ∅ := by
    refine Finset.eq_empty_of_forall_notMem fun b hb => ?_
    obtain ⟨f, hf, _⟩ := mem_heldBlocks.mp hb
    exact hnone f hf
  have hbal' := h.balanced
  rw [hempty, Finset.union_empty] at hbal'
  exact hbal'.memory_unique hbal rfl

/-- **The outcomes of a boot-time clone**: it succeeds as planned; or it is
undone as planned, which restores the manager if the order fits and panics if
it does not. -/
theorem cloneRoot_outcome {ms : List Region} {live : Finset Block} {c : BootTables N}
    (hbal : Ledger.Balanced ms ⟨c.pmm, live⟩) {limit : Nat} {source : UInt64}
    (hboot : c.BootContract source) :
    (∃ root order n owned c', c.bootPlan limit source = (.built root order, n) ∧
      ((cloneRoot limit source).run handler c).2 = .ok (.ok owned, c')) ∨
    (∃ e order n, c.bootPlan limit source = (.undone e order, n) ∧
      (c.OrderFits order ∧ (∃ c', ((cloneRoot limit source).run handler c).2 =
          .ok (.error e, c') ∧ c'.pmm = c.pmm) ∨
        ¬ c.OrderFits order ∧
          ((cloneRoot limit source).run handler c).2 = .error .rollback)) := by
  obtain ⟨fs, hm, ht⟩ := hbal.tiles
  have hfree : Tiles Block.span (cover ms) live c.pmm.freeRegions := by
    have hcurrent : c.pmm.freeRegions = fs := hm.free.take
    rw [hcurrent]
    exact ht
  have hwp := Prog.wp_panics (· = BootPanic.rollback) (@cloneRoot_wp _ _
    (bootRoom N c.pmm.freeRegions) _ limit _ (Set.Subset.refl (sourceTables c.words 4 source)))
  rcases run_sound (refines hboot hfree) (follows_fresh hbal) hwp with
    ⟨log, r, c', v', hrun, _, hfollows, hpost⟩ |
    ⟨log, panic, c', v', hrun, _, hfollows, hstuck, rfl⟩
  · rcases hpost with ⟨root, order, fs', n, rfl, hbuilt, hplan⟩ |
      ⟨e, order, fs', n, rfl, hundone, hplan⟩
    · exact .inl ⟨root, order, n, _, c', hplan _ hfollows.agrees, by rw [hrun]⟩
    · refine .inr ⟨e, order, n, hplan _ hfollows.agrees, .inl ⟨?_, c', by rw [hrun], ?_⟩⟩
      · intro p f q horder
        rw [← frameBytes_held hundone.allocated hundone.nodup hundone.perm horder]
        exact hundone.rooms p f q horder
      · refine hfollows.restored hbal fun f hf => hf.2 ?_
        rw [hundone.released, hundone.perm.mem_iff]
        have := hf.1
        rw [hundone.allocated] at this
        exact this
  · obtain ⟨e, order, n, _, hstuck, hplan⟩ := hstuck
    obtain ⟨p, f, q, horder, hrel, hroom⟩ := hstuck.stuck
    obtain ⟨fs', hall, hnodup, hperm⟩ := hstuck.books
    refine .inr ⟨e, order, n, hplan _ hfollows.agrees, .inr ⟨?_, by rw [hrun]⟩⟩
    intro hfits
    refine hroom ?_
    unfold bootRoom
    rw [frameBytes_held hall hnodup hperm horder]
    exact hfits p f q horder

/-- **Rollback into the memory manager.** From every reachable state and for
every source tree under the boot contract, a failing clone returns all its
frames and restores the manager if and only if its frames fit on their way
back. -/
theorem cloneRoot_restores_iff {regions : List Region} {m₀ : PhysicalMemory N}
    (hnew : PhysicalMemory.new regions = .ok m₀) {s : Ledger N} (hs : Ledger.Reachable m₀ s)
    {c : BootTables N} (hc : c.pmm = s.memory) {limit : Nat} {source : UInt64}
    (hboot : c.BootContract source) :
    c.Restores limit source ↔ c.RollbackFits limit source := by
  obtain ⟨ms, hm, hms⟩ := PhysicalMemory.new_shows hnew
  have hbal : Ledger.Balanced ms ⟨c.pmm, s.live⟩ := by
    rw [hc]
    exact hs.balanced hm hms
  rcases @cloneRoot_outcome N ms s.live c hbal limit source hboot with
    ⟨root, order, n, owned, c', hplan, hrun⟩ | ⟨e, order, n, hplan, hrun⟩
  · constructor
    · intro _ e' order' n' hplan'
      rw [hplan] at hplan'
      cases hplan'
    · intro _
      exact ⟨.ok owned, c', hrun, fun e he => nomatch he⟩
  · rcases hrun with ⟨hfits, c', hrun, hsame⟩ | ⟨hfits, hrun⟩
    · constructor
      · intro _ e' order' n' hplan'
        rw [hplan] at hplan'
        cases hplan'
        exact hfits
      · intro _
        exact ⟨.error e, c', hrun, fun _ _ => hsame⟩
    · constructor
      · intro ⟨result, c', hrun', _⟩
        rw [hrun] at hrun'
        cases hrun'
      · intro h
        exact absurd (h e order n hplan) hfits

/-! ## One region of four pages -/

/-- A manager with one slot per list and the region `0x10000..0x14000`. -/
def fourPages : PhysicalMemory 1 :=
  ⟨#v[⟨0x10000, 0x14000⟩], 1, #v[⟨0x10000, 0x14000⟩], 1, 0x4000, 0x4000⟩

theorem new_fourPages : PhysicalMemory.new [⟨0x10000, 0x14000⟩] = .ok fourPages := by
  decide +kernel

/-- The root table at `0x1000` has the given entries; all else is zero. -/
def bootRoot (entries : List UInt64) : BootTables 1 where
  offset := 0
  pmm := fourPages
  words f i := if f = 0x1000 then entries.getD i 0 else 0

theorem sourceTables_bootRoot {entries : List UInt64}
    (h : entries.all fun entry => (entry &&& ADDRESS).toNat < 0x10000) (level : Nat) :
    ∀ frame : UInt64, frame.toNat < 0x10000 →
      ∀ f ∈ sourceTables (bootRoot entries).words level frame, f.toNat < 0x10000 := by
  induction level with
  | zero =>
      intro frame _ f hf
      exact hf.elim
  | succ below ih =>
      intro frame hframe f hf
      rcases hf.2 with rfl | ⟨_, i, _, htable, hchild⟩
      · exact hframe
      · refine ih _ ?_ f hchild
        show ((if frame = 0x1000 then entries.getD i 0 else 0) &&& ADDRESS).toNat < 0x10000
        by_cases hroot : frame = 0x1000
        · rw [if_pos hroot, List.getD_eq_getElem?_getD]
          cases hi : entries[i]? with
          | none => decide
          | some entry =>
              exact of_decide_eq_true (List.all_eq_true.mp h entry (List.mem_of_getElem? hi))
        · rw [if_neg hroot]
          decide

theorem bootContract_bootRoot {entries : List UInt64}
    (h : entries.all fun entry => (entry &&& ADDRESS).toNat < 0x10000) :
    (bootRoot entries).BootContract 0x1000 := by
  have hmapped : ∀ f : UInt64, f.toNat < 0x14000 → Mapped 0 f := by
    intro f hf
    refine ⟨?_, .inl (by omega)⟩
    rw [wordSize]
    omega
  have hbelow := sourceTables_bootRoot h 4 0x1000 (by decide)
  refine ⟨?_, ?_, ?_⟩
  · intro f hf hfree
    obtain ⟨r, hr, hin⟩ := hfree
    obtain rfl : r = ⟨0x10000, 0x14000⟩ := List.mem_singleton.mp hr
    have := hbelow f hf
    have : 0x10000 ≤ f.toNat := hin.1
    omega
  · intro f hf
    have := hbelow f hf
    exact hmapped f (by omega)
  · intro page hpage
    refine hmapped _ ?_
    have hall : ∀ page ∈ freePageList [⟨0x10000, 0x14000⟩],
        (UInt64.ofNat page).toNat < 0x14000 := by decide +kernel
    exact hall page hpage

/-- A root with one bad entry: its frame goes back where it came from. -/
theorem cloneRoot_restores_badEntry : (bootRoot [0x81]).Restores 16 0x1000 := by
  have hplan : (bootRoot [0x81]).bootPlan 16 0x1000 =
      (.undone .invalidHugePage [0x10000], 1) := by decide +kernel
  have hboot : (bootRoot [0x81]).BootContract 0x1000 := bootContract_bootRoot (by decide)
  refine (@cloneRoot_restores_iff 1 _ _ new_fourPages _ .init (bootRoot [0x81]) rfl 16 0x1000
    hboot).mpr ?_
  intro e order n hplan'
  rw [hplan] at hplan'
  obtain rfl : [0x10000] = order := (Plan.undone.inj (Prod.mk.inj hplan').1).2
  intro p f q horder
  have hq : q = [] := by
    cases p with
    | nil => exact (List.cons.inj horder).2.symm
    | cons g p => simp at horder
  have hall : cover (bootRoot [0x81]).pmm.freeRegions \ frameBytes q =
      cover [⟨0x10000, 0x14000⟩] := by
    rw [hq]
    ext x
    simp [frameBytes, bootRoot, fourPages, PhysicalMemory.freeRegions]
  rw [hall, (Separated.singleton (by decide)).ncard_leftEnds]
  exact le_refl 1

/-- Two children and then a bad entry: the first child goes back between the
second and the root, next to no free page, and the one slot is taken. -/
theorem twoChildren_panics :
    PhysicalMemory.new [⟨0x10000, 0x14000⟩] = .ok (bootRoot [0x2003, 0x3003, 0x81]).pmm ∧
    (bootRoot [0x2003, 0x3003, 0x81]).BootContract 0x1000 ∧
    ((cloneRoot 16 0x1000).run handler (bootRoot [0x2003, 0x3003, 0x81])).2 =
      .error (.expect "table rollback failed") := by
  have hboot : (bootRoot [0x2003, 0x3003, 0x81]).BootContract 0x1000 :=
    bootContract_bootRoot (by decide)
  have hplan : (bootRoot [0x2003, 0x3003, 0x81]).bootPlan 16 0x1000 =
      (.undone .invalidHugePage [0x11000, 0x12000, 0x10000], 3) := by decide +kernel
  refine ⟨new_fourPages, hboot, ?_⟩
  obtain ⟨ms, hm, hms⟩ := PhysicalMemory.new_shows new_fourPages
  have hunfit : ¬ (bootRoot [0x2003, 0x3003, 0x81]).OrderFits [0x11000, 0x12000, 0x10000] := by
    intro hfits
    have hcount := hfits [] 0x11000 [0x12000, 0x10000] rfl
    have hgap : cover (bootRoot [0x2003, 0x3003, 0x81]).pmm.freeRegions \
        frameBytes [0x12000, 0x10000] =
          cover [⟨0x11000, 0x12000⟩, ⟨0x13000, 0x14000⟩] := by
      ext x
      simp [frameBytes, frameBlock, Block.span, PhysicalMemory.pageBlock, pageSize, bootRoot,
        fourPages, PhysicalMemory.freeRegions]
      omega
    have hsep : Separated [(⟨0x11000, 0x12000⟩ : Span), ⟨0x13000, 0x14000⟩] :=
      ⟨by decide, by decide⟩
    rw [hgap, hsep.ncard_leftEnds] at hcount
    exact absurd hcount (by decide)
  rcases @cloneRoot_outcome 1 ms ∅ _ (Ledger.balanced_init hm hms) 16 0x1000 hboot with
    ⟨root, order, n, _, _, hplan', _⟩ | ⟨e, order, n, hplan', hrun⟩
  · rw [hplan] at hplan'
    cases hplan'
  · rw [hplan] at hplan'
    cases hplan'
    rcases hrun with ⟨hfits, _⟩ | ⟨_, hrun⟩
    · exact absurd hfits hunfit
    · exact hrun

end GenericKernel.Paging.BootTables
