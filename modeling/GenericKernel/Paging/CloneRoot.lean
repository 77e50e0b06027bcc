import GenericKernel.Paging.CloneLogic

/-!
# Cloning on any table memory

`Contract` is the documented contract of the `TableMemory` trait. On every
memory that meets it, a clone that succeeds is a faithful private copy, and a
clone that fails has released exactly what it allocated.
-/

namespace GenericKernel.Paging

open GenericKernel.Lib

variable {σ ε : Type}

/-- The contract of `TableMemory`: `live` are the initialised tables, `owned`
those handed out by `allocate`, `words` the contents. -/
structure Contract (memory : Handler TableOp.Reply σ ε) (live owned : σ → Set UInt64)
    (words : σ → Words) : Prop where
  allocate : ∀ m, ∃ reply m', memory .allocate m = .ok (reply, m') ∧
    (∀ f ∈ live m, ∀ i < 512, words m' f i = words m f i) ∧
    match reply with
    | none => live m' = live m ∧ owned m ⊆ owned m'
    | some frame => frame ∉ live m ∧ live m' = insert frame (live m) ∧
        insert frame (owned m) ⊆ owned m'
  release : ∀ m, ∀ frame ∈ owned m, ∃ m', memory (.release frame) m = .ok ((), m') ∧
    live m' = live m \ {frame} ∧ owned m \ {frame} ⊆ owned m' ∧
    ∀ f ∈ live m, f ≠ frame → ∀ i < 512, words m' f i = words m f i
  read : ∀ m, ∀ frame ∈ live m, ∀ index < 512,
    memory (.read frame index) m = .ok (words m frame index, m)
  write : ∀ m, ∀ frame ∈ owned m, ∀ index < 512, ∀ entry,
    ∃ m', memory (.write frame index entry) m = .ok ((), m') ∧ live m' = live m ∧
      owned m ⊆ owned m' ∧ words m' frame index = entry ∧
      ∀ f ∈ live m, ∀ i < 512, f ≠ frame ∨ i ≠ index → words m' f i = words m f i

/-- The memory as the clone sees it: the initial tables and the frames the
clone holds are live, with the contents of the view. -/
structure Sees (live owned : σ → Set UInt64) (words : σ → Words) (tables : Set UInt64) (m : σ)
    (v : View) : Prop where
  live_eq : live m = tables ∪ {f | v.Owned f}
  holds : ∀ f, v.Owned f → f ∈ owned m
  apart : ∀ f, v.Owned f → f ∉ tables
  agree : ∀ f ∈ live m, ∀ i < 512, words m f i = v.words f i

/-- No frame is ever missing room in a memory that meets the contract. -/
def anyRoom : Room := fun _ _ _ => True

/-- A memory under contract refines the clone's view of it. -/
theorem Contract.refines {memory : Handler TableOp.Reply σ ε} {live owned : σ → Set UInt64}
    {words : σ → Words} (h : Contract memory live owned words) (tables : Set UInt64) :
    Refines memory (viewSpec tables anyRoom ε) (Sees live owned words tables) := by
  intro m v op hsees hpre
  refine .inl ?_
  cases op with
  | allocate =>
      obtain ⟨reply, m', hok, hsame, hlive⟩ := h.allocate m
      cases reply with
      | none =>
          refine ⟨none, m', { v with replies := v.replies ++ [none] }, hok, ⟨rfl, rfl, rfl⟩, ?_⟩
          have howned : ∀ f, View.Owned { v with replies := v.replies ++ [none] } f ↔
              v.Owned f := by
            intro f
            unfold View.Owned View.allocated
            simp
          refine ⟨?_, ?_, ?_, ?_⟩
          · rw [hlive.1, hsees.live_eq]
            simp only [howned]
          · intro f hf
            exact hlive.2 (hsees.holds f ((howned f).mp hf))
          · intro f hf
            exact hsees.apart f ((howned f).mp hf)
          · intro f hf i hi
            rw [hlive.1] at hf
            rw [hsame f hf i hi]
            exact hsees.agree f hf i hi
      | some frame =>
          obtain ⟨hfresh, hlive, hown⟩ := hlive
          rw [hsees.live_eq] at hfresh
          have hnot : frame ∉ tables ∧ ¬ v.Owned frame := by
            refine ⟨fun hmem => hfresh (.inl hmem), fun hmem => hfresh (.inr hmem)⟩
          let v' : View := ⟨fun f => if f = frame then words m' f else v.words f,
            v.replies ++ [some frame], v.released⟩
          have howned : ∀ f, v'.Owned f ↔ f = frame ∨ v.Owned f := fun f =>
            View.owned_allocate rfl rfl hpre
          refine ⟨some frame, m', v', hok, ⟨rfl, rfl, hnot.1, hnot.2, ?_⟩, ?_, ?_, ?_, ?_⟩
          · intro f hf
            exact if_neg hf
          · rw [hlive, hsees.live_eq]
            ext f
            simp only [Set.mem_insert_iff, Set.mem_union, Set.mem_ofPred_eq, howned]
            tauto
          · intro f hf
            rcases (howned f).mp hf with rfl | hf
            · exact hown (Set.mem_insert _ _)
            · exact hown (Set.mem_insert_of_mem _ (hsees.holds f hf))
          · intro f hf
            rcases (howned f).mp hf with rfl | hf
            · exact hnot.1
            · exact hsees.apart f hf
          · intro f hf i hi
            show words m' f i = (if f = frame then words m' f else v.words f) i
            by_cases heq : f = frame
            · rw [if_pos heq]
            · rw [hlive] at hf
              have hf' : f ∈ live m := (Set.mem_insert_iff.mp hf).resolve_left heq
              rw [if_neg heq, hsame f hf' i hi]
              exact hsees.agree f hf' i hi
  | release frame =>
      have hframe : v.Owned frame := hpre
      obtain ⟨m', hok, hlive, hown, hsame⟩ := h.release m frame (hsees.holds frame hframe)
      let v' : View := { v with released := v.released ++ [frame] }
      have howned : ∀ f, v'.Owned f ↔ v.Owned f ∧ f ≠ frame := fun f =>
        View.owned_release rfl rfl
      refine ⟨(), m', v', hok, ⟨trivial, rfl, rfl, fun _ _ => rfl⟩, ?_, ?_, ?_, ?_⟩
      · rw [hlive, hsees.live_eq]
        ext f
        have hapart : f ∈ tables → f ≠ frame := fun hf heq =>
          hsees.apart frame hframe (heq ▸ hf)
        simp only [Set.mem_sdiff, Set.mem_union, Set.mem_ofPred_eq, Set.mem_singleton_iff, howned]
        tauto
      · intro f hf
        obtain ⟨hf, hne⟩ := (howned f).mp hf
        exact hown ⟨hsees.holds f hf, hne⟩
      · intro f hf
        exact hsees.apart f ((howned f).mp hf).1
      · intro f hf i hi
        rw [hlive] at hf
        rw [hsame f hf.1 hf.2 i hi]
        exact hsees.agree f hf.1 i hi
  | read frame index =>
      have hlive : frame ∈ live m := by
        rw [hsees.live_eq]
        exact hpre.1
      refine ⟨_, m, v, h.read m frame hlive index hpre.2, ⟨?_, rfl⟩, hsees⟩
      exact hsees.agree frame hlive index hpre.2
  | write frame index entry =>
      have hframe : v.Owned frame := hpre.1
      obtain ⟨m', hok, hlive, hown, hstored, hsame⟩ :=
        h.write m frame (hsees.holds frame hframe) index hpre.2 entry
      refine ⟨(), m', v.set frame index entry, hok, rfl, ?_, ?_, ?_, ?_⟩
      · rw [hlive]
        exact hsees.live_eq
      · intro f hf
        exact hown (hsees.holds f hf)
      · exact hsees.apart
      · intro f hf i hi
        rw [hlive] at hf
        by_cases heq : f = frame ∧ i = index
        · rw [heq.1, heq.2, hstored, View.set_words_self]
        · have hne : f ≠ frame ∨ i ≠ index := by
            rw [← not_and_or]
            exact heq
          rw [hsame f hf i hi hne, hsees.agree f hf i hi]
          exact (if_neg heq).symm

/-! ## The calls of a clone -/

/-- Frames handed out by the calls of a log. -/
def allocations (log : List (Event TableOp.Reply)) : List UInt64 :=
  log.filterMap fun
    | ⟨.allocate, reply⟩ => reply
    | _ => none

/-- Frames given back by the calls of a log. -/
def releases (log : List (Event TableOp.Reply)) : List UInt64 :=
  log.filterMap fun
    | ⟨.release frame, _⟩ => some frame
    | _ => none

/-- The view keeps the log's books. -/
theorem trace_ledger {tables : Set UInt64} {room : Room} {v v' : View}
    {log : List (Event TableOp.Reply)} (h : (viewSpec tables room ε).Trace v log v') :
    v'.allocated = v.allocated ++ allocations log ∧
      v'.released = v.released ++ releases log := by
  induction h with
  | nil v => exact ⟨(List.append_nil _).symm, (List.append_nil _).symm⟩
  | @cons v v₁ v' op reply log _ hpost _ ih =>
      rw [ih.1, ih.2]
      cases op with
      | allocate =>
          obtain ⟨hreplies, hreleased, _⟩ := hpost
          rw [hreleased]
          refine ⟨?_, rfl⟩
          unfold View.allocated allocations
          rw [hreplies, List.filterMap_append, List.append_assoc]
          cases reply with
          | none => rfl
          | some frame => rfl
      | release frame =>
          obtain ⟨_, hreplies, hreleased, _⟩ := hpost
          unfold View.allocated
          rw [hreplies, hreleased, List.append_assoc]
          exact ⟨rfl, rfl⟩
      | read frame index =>
          obtain ⟨_, rfl⟩ := hpost
          exact ⟨rfl, rfl⟩
      | write frame index entry =>
          obtain rfl : v₁ = v.set frame index entry := hpost
          exact ⟨rfl, rfl⟩

/-- What the log of a failed clone looks like: everything allocated is
released exactly once, nothing else is released, nothing is used after its
release, and only frames of the clone are written. -/
structure RolledBack (log : List (Event TableOp.Reply)) : Prop where
  distinct : (allocations log).Nodup
  released : (releases log).Perm (allocations log)
  release_own : ∀ before frame after, log = before ++ ⟨.release frame, ()⟩ :: after →
    frame ∈ allocations before ∧ frame ∉ releases before
  read_unreleased : ∀ before frame index entry after,
    log = before ++ ⟨.read frame index, entry⟩ :: after → frame ∉ releases before
  write_own : ∀ before frame index entry after,
    log = before ++ ⟨.write frame index entry, ()⟩ :: after →
    frame ∈ allocations before ∧ frame ∉ releases before

/-- What a clone holds according to the log so far. -/
theorem owned_iff_log {tables : Set UInt64} {room : Room} {words : Words} {v : View}
    {log : List (Event TableOp.Reply)}
    (h : (viewSpec tables room ε).Trace (View.fresh words) log v) (f : UInt64) :
    v.Owned f ↔ f ∈ allocations log ∧ f ∉ releases log := by
  obtain ⟨hall, hrel⟩ := trace_ledger h
  unfold View.Owned
  rw [hall, hrel]
  rfl

theorem Undone.rolledBack {tables : Set UInt64} {words : Words} {room : Room}
    {order fs' : List UInt64} {v' : View} {log : List (Event TableOp.Reply)}
    (h : Undone tables words room [] (View.fresh words) order fs' v')
    (htrace : (viewSpec tables room ε).Trace (View.fresh words) log v') : RolledBack log := by
  obtain ⟨hall, hrel⟩ := trace_ledger htrace
  have hall' : allocations log = fs' := hall.symm.trans h.allocated
  have hrel' : releases log = order := hrel.symm.trans h.released
  refine ⟨?_, ?_, ?_, ?_, ?_⟩
  · rw [hall']
    exact h.nodup
  · rw [hall', hrel']
    exact h.perm
  · intro before frame after heq
    rw [heq] at htrace
    obtain ⟨v₁, htrace₁, hpre⟩ := htrace.split
    exact (owned_iff_log htrace₁ frame).mp hpre
  · intro before frame index entry after heq hmem
    have htrace₂ := htrace
    rw [heq] at htrace₂
    obtain ⟨v₁, htrace₁, hpre⟩ := htrace₂.split
    rcases hpre.1 with htable | howned
    · -- an initialised table is never among the released frames
      have hback : frame ∈ releases log := by
        rw [heq]
        unfold releases at hmem ⊢
        rw [List.filterMap_append]
        exact List.mem_append_left _ hmem
      rw [hrel'] at hback
      exact h.fresh frame (h.perm.mem_iff.mp hback) htable
    · exact ((owned_iff_log htrace₁ frame).mp howned).2 hmem
  · intro before frame index entry after heq
    rw [heq] at htrace
    obtain ⟨v₁, htrace₁, hpre⟩ := htrace.split
    exact (owned_iff_log htrace₁ frame).mp hpre.1

/-! ## A memory under contract

`Memory` of the source's tests: tables in a map, a bump allocator with a
budget. -/

/-- Tables by frame; frames from `next` on are unused. -/
structure Memory where
  tables : UInt64 → Option (Nat → UInt64)
  next : Nat
  budget : Nat
  below : ∀ f, (tables f).isSome = true → f.toNat < next

namespace Memory

def insert (m : Memory) (h : m.next < 2 ^ 64) : Memory where
  tables f := if f = UInt64.ofNat m.next then some fun _ => 0xffff_ffff_ffff_ffff else m.tables f
  next := m.next + 4096
  budget := m.budget - 1
  below := by
    intro f hf
    by_cases heq : f = UInt64.ofNat m.next
    · rw [heq, UInt64.toNat_ofNat_of_lt' h]
      omega
    · rw [if_neg heq] at hf
      have := m.below f hf
      omega

def remove (m : Memory) (frame : UInt64) : Memory where
  tables f := if f = frame then none else m.tables f
  next := m.next
  budget := m.budget
  below := by
    intro f hf
    by_cases heq : f = frame
    · rw [if_pos heq] at hf
      cases hf
    · rw [if_neg heq] at hf
      exact m.below f hf

def put (m : Memory) (frame : UInt64) (table : Nat → UInt64)
    (h : (m.tables frame).isSome = true) : Memory where
  tables f := if f = frame then some table else m.tables f
  next := m.next
  budget := m.budget
  below := by
    intro f hf
    by_cases heq : f = frame
    · rw [heq]
      exact m.below frame h
    · rw [if_neg heq] at hf
      exact m.below f hf

/-- The trait methods; a missing table is a panic. -/
def handler : Handler TableOp.Reply Memory Unit := fun op m =>
  match op with
  | .allocate =>
      if h : m.budget ≠ 0 ∧ m.next < 2 ^ 64 then
        .ok (some (UInt64.ofNat m.next), m.insert h.2)
      else .ok (none, m)
  | .release frame =>
      if (m.tables frame).isSome = true then .ok ((), m.remove frame) else .error ()
  | .read frame index =>
      match m.tables frame with
      | some table => .ok (table index, m)
      | none => .error ()
  | .write frame index entry =>
      match h : m.tables frame with
      | some table =>
          .ok ((), m.put frame (fun i => if i = index then entry else table i)
            (by rw [h]; rfl))
      | none => .error ()

def live (m : Memory) : Set UInt64 := {f | (m.tables f).isSome = true}

def words (m : Memory) : Words := fun f i => ((m.tables f).map fun table => table i).getD 0

theorem exists_table {m : Memory} {f : UInt64} (h : f ∈ m.live) :
    ∃ table, m.tables f = some table := Option.isSome_iff_exists.mp h

theorem contract : Contract handler live live words := by
  refine ⟨?_, ?_, ?_, ?_⟩
  · intro m
    by_cases h : m.budget ≠ 0 ∧ m.next < 2 ^ 64
    · have hfresh : UInt64.ofNat m.next ∉ m.live := by
        intro hmem
        have := m.below _ hmem
        rw [UInt64.toNat_ofNat_of_lt' h.2] at this
        omega
      have hother : ∀ f ∈ m.live, f ≠ UInt64.ofNat m.next := fun f hf heq => hfresh (heq ▸ hf)
      have hlive : (m.insert h.2).live = Insert.insert (UInt64.ofNat m.next) m.live := by
        ext f
        show ((if f = UInt64.ofNat m.next then _ else m.tables f) : Option _).isSome = true ↔ _
        by_cases heq : f = UInt64.ofNat m.next
        · simp [heq]
        · simp [heq, live]
      refine ⟨_, _, dif_pos h, ?_, hfresh, hlive, hlive.symm.subset⟩
      intro f hf i _
      show ((if f = UInt64.ofNat m.next then _ else m.tables f : Option _).map _).getD 0 = _
      rw [if_neg (hother f hf)]
      rfl
    · exact ⟨none, m, dif_neg h, fun _ _ _ _ => rfl, rfl, subset_rfl⟩
  · intro m frame hframe
    have hlive : (m.remove frame).live = m.live \ {frame} := by
      ext f
      show ((if f = frame then none else m.tables f) : Option _).isSome = true ↔ _
      by_cases heq : f = frame
      · simp [heq]
      · simp [heq, live]
    refine ⟨m.remove frame, if_pos hframe, hlive, hlive.symm.subset, ?_⟩
    intro f _ hne i _
    show ((if f = frame then none else m.tables f : Option _).map _).getD 0 = _
    rw [if_neg hne]
    rfl
  · intro m frame hframe index _
    obtain ⟨table, htable⟩ := exists_table hframe
    simp [handler, words, htable]
  · intro m frame hframe index _ entry
    obtain ⟨table, htable⟩ := exists_table hframe
    have hlive : (m.put frame (fun i => if i = index then entry else table i) hframe).live =
        m.live := by
      ext f
      show ((if f = frame then _ else m.tables f) : Option _).isSome = true ↔ _
      by_cases heq : f = frame
      · simp [heq, live, htable]
      · simp [heq, live]
    refine ⟨m.put frame (fun i => if i = index then entry else table i) hframe, ?_, hlive,
      hlive.symm.subset, ?_, ?_⟩
    · unfold handler
      dsimp only
      split
      · rename_i table' htable'
        rw [htable] at htable'
        obtain rfl := Option.some.inj htable'
        rfl
      · rename_i hnone
        rw [htable] at hnone
        cases hnone
    · simp [words, put]
    · intro f _ i _ hne
      show ((if f = frame then _ else m.tables f : Option _).map _).getD 0 = _
      by_cases heq : f = frame
      · have hi : i ≠ index := hne.resolve_left (not_not.mpr heq)
        rw [if_pos heq, heq]
        simp [words, htable, hi]
      · rw [if_neg heq]
        rfl

/-- A root with the first entry `entry`, and an empty table behind it. -/
def fixture (entry : UInt64) (budget : Nat) : Memory where
  tables f :=
    if f = 0x1000 then some fun i => if i = 0 then entry else 0
    else if f = 0x2000 then some fun _ => 0 else none
  next := 0x1000_0000
  budget := budget
  below := by
    intro f hf
    by_cases h₁ : f = 0x1000
    · rw [h₁]
      decide
    · rw [if_neg h₁] at hf
      by_cases h₂ : f = 0x2000
      · rw [h₂]
        decide
      · rw [if_neg h₂] at hf
        cases hf

theorem words_root (entry : UInt64) (budget i : Nat) :
    (fixture entry budget).words 0x1000 i = if i = 0 then entry else 0 := rfl

theorem words_child (entry : UInt64) (budget i : Nat) :
    (fixture entry budget).words 0x2000 i = 0 := rfl

/-- The fixture's tables are initialised: the root links nothing or the empty
table. -/
theorem sourceTables_fixture {entry : UInt64} (budget : Nat)
    (h : IsTable entry → entry &&& ADDRESS = 0x2000) :
    sourceTables (fixture entry budget).words 4 0x1000 ⊆ (fixture entry budget).live := by
  have hroot : (0x1000 : UInt64) ∈ (fixture entry budget).live := rfl
  have hchild : (0x2000 : UInt64) ∈ (fixture entry budget).live := rfl
  intro f hf
  obtain ⟨_, rfl | ⟨_, i, _, htable, hf⟩⟩ := hf
  · exact hroot
  · rw [words_root] at htable hf
    by_cases hi : i = 0
    · rw [if_pos hi] at htable hf
      rw [h htable] at hf
      obtain ⟨_, rfl | ⟨_, j, _, hlink, _⟩⟩ := hf
      · exact hchild
      · rw [words_child] at hlink
        exact absurd hlink not_isTable_zero
    · rw [if_neg hi] at htable
      exact absurd htable not_isTable_zero

/-- The result of a clone of the fixture's root. -/
def cloneResult (m : Memory) : Option (Except CloneError OwnedRoot) :=
  match ((cloneRoot 16 0x1000).run handler m).2 with
  | .ok (r, _) => some r
  | .error _ => none

end Memory

/-! ## The two outcomes -/

/-- Before the clone asks for anything, its view is the memory. -/
theorem Sees.fresh (live owned : σ → Set UInt64) (words : σ → Words) (m : σ) :
    Sees live owned words (live m) m (View.fresh (words m)) := by
  have hnone : ∀ f, ¬ (View.fresh (words m)).Owned f := fun f hf =>
    List.not_mem_nil hf.1
  refine ⟨?_, fun f hf => absurd hf (hnone f), fun f hf => absurd hf (hnone f),
    fun _ _ _ _ => rfl⟩
  ext f
  simp [hnone]

/-- Running `cloneRoot` on a memory that refines the view: never a panic, and the
postcondition on the view it leaves. -/
theorem run_cloneRoot_of_refines {memory : Handler TableOp.Reply σ ε} {tables : Set UInt64}
    {words : Words} {R : σ → View → Prop} (limit : Nat) {source : UInt64} {m : σ}
    (hsource : sourceTables words 4 source ⊆ tables)
    (hrefines : Refines memory (viewSpec tables anyRoom ε) R) (hR : R m (View.fresh words)) :
    ∃ log r m' v', (cloneRoot limit source).run memory m = (log, .ok (r, m')) ∧
      (viewSpec tables anyRoom ε).Trace (View.fresh words) log v' ∧ R m' v' ∧
      RootPost tables words anyRoom limit source r v' := by
  rcases run_sound hrefines hR (cloneRoot_wp hsource) with
    ⟨log, r, m', v', hrun, htrace, hR', hpost⟩ | ⟨log, e, _, v', _, _, _, hstuck⟩
  · exact ⟨log, r, m', v', hrun, htrace, hR', hpost⟩
  · obtain ⟨_, _, _, _, hstuck, _⟩ := hstuck
    obtain ⟨p, f, q, _, _, hroom⟩ := hstuck.stuck
    exact absurd trivial hroom

/-- The same on a memory under contract. -/
theorem Contract.run_cloneRoot {memory : Handler TableOp.Reply σ ε} {live owned : σ → Set UInt64}
    {words : σ → Words} (h : Contract memory live owned words) (limit : Nat) {source : UInt64}
    {m : σ} (hsource : sourceTables (words m) 4 source ⊆ live m) :
    ∃ log r m' v', (cloneRoot limit source).run memory m = (log, .ok (r, m')) ∧
      (viewSpec (live m) anyRoom ε).Trace (View.fresh (words m)) log v' ∧
      Sees live owned words (live m) m' v' ∧
      RootPost (live m) (words m) anyRoom limit source r v' :=
  run_cloneRoot_of_refines limit hsource (h.refines (live m)) (Sees.fresh live owned words m)

/-- **A successful clone is a faithful private copy.** Every walk visits the
same levels with the same flags and ends at the same entry; the tables of the
clone are distinct frames allocated by the call, `table_frames` many; the
source is unchanged. -/
theorem cloneRoot_faithful {memory : Handler TableOp.Reply σ ε} {live owned : σ → Set UInt64}
    {words : σ → Words} (h : Contract memory live owned words) (limit : Nat) (source : UInt64)
    (m : σ) (hsource : sourceTables (words m) 4 source ⊆ live m) :
    ∃ log r m', (cloneRoot limit source).run memory m = (log, .ok (r, m')) ∧
      ∀ root, r = .ok root →
        (∀ i₄ < 512, ∀ i₃ < 512, ∀ i₂ < 512, ∀ i₁ < 512,
          SameWalk (walk (words m) 4 source [i₄, i₃, i₂, i₁])
            (walk (words m') 4 root.physical [i₄, i₃, i₂, i₁])) ∧
        (treeFrames (words m') 4 root.physical).Nodup ∧
        (∀ f ∈ treeFrames (words m') 4 root.physical, f ∈ allocations log) ∧
        root.tableFrames = (treeFrames (words m') 4 root.physical).length ∧
        root.tableFrames = (allocations log).length ∧
        ∀ f ∈ sourceTables (words m) 4 source, ∀ i < 512, words m' f i = words m f i := by
  obtain ⟨log, r, m', v', hrun, htrace, hsees, hpost⟩ := h.run_cloneRoot limit hsource
  refine ⟨log, r, m', hrun, ?_⟩
  intro root hroot
  rcases hpost with ⟨physical, order, fs', _, hr, hbuilt, _⟩ | ⟨e, _, _, _, hr, _⟩
  · rw [hr] at hroot
    obtain rfl := Except.ok.inj hroot
    have hall : allocations log = fs' :=
      (trace_ledger htrace).1.symm.trans hbuilt.ready.allocated
    -- the tables of the clone are live, so the memory shows what the view shows
    have hlive : ∀ f ∈ treeFrames v'.words 4 physical, f ∈ live m' := by
      intro f hf
      rw [hbuilt.tree] at hf
      rw [hsees.live_eq]
      exact .inr (hbuilt.ready.owned (hbuilt.perm.mem_iff.mp hf))
    have hsame : ∀ f ∈ treeFrames v'.words 4 physical, ∀ i < 512, words m' f i = v'.words f i :=
      fun f hf => hsees.agree f (hlive f hf)
    have htree : treeFrames (words m') 4 physical = order :=
      (treeFrames_congr 4 hsame).trans hbuilt.tree
    have hlen : order.length = fs'.length := hbuilt.perm.length_eq
    refine ⟨?_, ?_, ?_, ?_, ?_, ?_⟩
    · intro i₄ h₄ i₃ h₃ i₂ h₂ i₁ h₁
      refine (hbuilt.copies.congr 4 hsame).sameWalk 4 rfl ?_
      simp [h₁, h₂, h₃, h₄]
    · rw [htree]
      exact hbuilt.perm.nodup_iff.mpr hbuilt.ready.nodup
    · rw [htree, hall]
      intro f hf
      exact hbuilt.perm.mem_iff.mp hf
    · rw [htree, hlen]
    · rw [hall]
    · intro f hf i hi
      have hf' : f ∈ live m := hsource hf
      have hlive' : f ∈ live m' := by
        rw [hsees.live_eq]
        exact .inl hf'
      rw [hsees.agree f hlive' i hi, hbuilt.ready.source f hf']
  · rw [hr] at hroot
    cases hroot

/-- A root that links a table: both are copied, a walk through the link goes on as before, and the
table that was linked keeps its contents. -/
theorem cloneRoot_faithful_oneLink : ∃ log m',
    (cloneRoot 16 0x1000).run Memory.handler (Memory.fixture 0x2003 2) =
      (log, .ok (.ok ⟨0x1000_0000, 2⟩, m')) ∧
    SameWalk (walk (Memory.fixture 0x2003 2).words 4 0x1000 [0, 5, 0, 0])
      (walk m'.words 4 0x1000_0000 [0, 5, 0, 0]) ∧
    (treeFrames m'.words 4 0x1000_0000).Nodup ∧
    (treeFrames m'.words 4 0x1000_0000).length = 2 ∧
    ∀ i < 512, m'.words 0x2000 i = (Memory.fixture 0x2003 2).words 0x2000 i := by
  have hresult : (Memory.fixture 0x2003 2).cloneResult = some (.ok ⟨0x1000_0000, 2⟩) := by
    decide +kernel
  obtain ⟨log, r, m', hrun, hfaithful⟩ := cloneRoot_faithful Memory.contract 16 0x1000
    (Memory.fixture 0x2003 2) (Memory.sourceTables_fixture 2 fun _ => by decide)
  rw [Memory.cloneResult, hrun] at hresult
  obtain rfl := Option.some.inj hresult
  obtain ⟨hwalk, hnodup, _, hlen, _, hsource⟩ := hfaithful _ rfl
  have hlinked : (0x2000 : UInt64) ∈ sourceTables (Memory.fixture 0x2003 2).words 4 0x1000 :=
    ⟨by decide, .inr ⟨by decide, 0, by decide, by decide, by decide, .inl rfl⟩⟩
  refine ⟨log, m', hrun, ?_, hnodup, hlen.symm, hsource _ hlinked⟩
  exact hwalk 0 (by decide) 5 (by decide) 0 (by decide) 0 (by decide)

/-- **A failed clone leaks nothing and frees nothing foreign.** Its log is
rolled back, and the memory it leaves has the same tables with the same
contents. -/
theorem cloneRoot_rolled_back {memory : Handler TableOp.Reply σ ε} {live owned : σ → Set UInt64}
    {words : σ → Words} (h : Contract memory live owned words) (limit : Nat) (source : UInt64)
    (m : σ) (hsource : sourceTables (words m) 4 source ⊆ live m) :
    ∃ log r m', (cloneRoot limit source).run memory m = (log, .ok (r, m')) ∧
      ∀ e, r = .error e → RolledBack log ∧ live m' = live m ∧
        ∀ f ∈ live m, ∀ i < 512, words m' f i = words m f i := by
  obtain ⟨log, r, m', v', hrun, htrace, hsees, hpost⟩ := h.run_cloneRoot limit hsource
  refine ⟨log, r, m', hrun, ?_⟩
  intro e he
  rcases hpost with ⟨_, _, _, _, hr, _⟩ | ⟨e', order, fs', n, hr, hundone, _⟩
  · rw [hr] at he
    cases he
  · have hnone : ∀ f, ¬ v'.Owned f := by
      intro f ⟨hall, hrel⟩
      rw [hundone.allocated] at hall
      rw [hundone.released] at hrel
      exact hrel (hundone.perm.mem_iff.mpr hall)
    have hlive : live m' = live m := by
      rw [hsees.live_eq]
      ext f
      simp [hnone]
    refine ⟨hundone.rolledBack htrace, hlive, ?_⟩
    intro f hf i hi
    rw [hsees.agree f (hlive ▸ hf) i hi, hundone.source f hf]

/-- With a budget of one frame the clone of a linked root runs out of memory
and is rolled back. -/
theorem cloneRoot_rolled_back_outOfMemory : ∃ log m',
    (cloneRoot 16 0x1000).run Memory.handler (Memory.fixture 0x2003 1) =
      (log, .ok (.error .outOfMemory, m')) ∧ RolledBack log := by
  have hresult : (Memory.fixture 0x2003 1).cloneResult = some (.error .outOfMemory) := by
    decide +kernel
  obtain ⟨log, r, m', hrun, hback⟩ := cloneRoot_rolled_back Memory.contract 16 0x1000
    (Memory.fixture 0x2003 1) (Memory.sourceTables_fixture 1 fun _ => by decide)
  rw [Memory.cloneResult, hrun] at hresult
  obtain rfl := Option.some.inj hresult
  exact ⟨log, m', hrun, (hback _ rfl).1⟩

end GenericKernel.Paging
