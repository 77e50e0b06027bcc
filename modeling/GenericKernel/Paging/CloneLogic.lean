import GenericKernel.Paging.TableView

/-!
# A clone follows its plan

Running `cloneTable` on the view of a memory either builds the tree its plan
describes, or gives back the plan's frames in the plan's order; it is stuck
exactly where a frame of that order finds no room. The proof is by induction on
the level. `Ready` is the invariant while nothing has failed, `Partial` the one
of the copy loop: the entries below the index are done, the rest are zero, so
the half-built table is a journal of exactly the completed children.
-/

namespace GenericKernel.Paging

open GenericKernel.Lib

/-- Nothing has failed: the frames `fs` are held, the initialised tables are
as in `words`. -/
structure Ready (tables : Set UInt64) (words : Words) (v : View) (fs : List UInt64) : Prop where
  source : ∀ f ∈ tables, v.words f = words f
  replies : v.replies = fs.map some
  fresh : ∀ f ∈ fs, f ∉ tables
  nodup : fs.Nodup
  released : v.released = []

/-- The frame supply agrees with the replies so far. -/
def Agrees (frames : Nat → Option UInt64) (v : View) : Prop :=
  ∀ i r, v.replies[i]? = some r → frames i = r

/-- The plan gives `result` for every frame supply that agrees with the
replies so far. -/
def Planned (v : View) (plan : (Nat → Option UInt64) → Plan × Nat) (result : Plan × Nat) :
    Prop :=
  ∀ frames, Agrees frames v → plan frames = result

/-- A built tree: the new frames `fs'` are its tables, the old ones are
untouched. -/
structure Built (tables : Set UInt64) (words : Words) (level : Nat) (source : UInt64)
    (fs : List UInt64) (v : View) (root : UInt64) (order fs' : List UInt64) (v' : View) :
    Prop where
  ready : Ready tables words v' (fs ++ fs')
  old : ∀ f ∈ fs, v'.words f = v.words f
  valid : ValidFrame root
  tree : treeFrames v'.words level root = order
  perm : order.Perm fs'
  copies : Copies words v'.words level source root

/-- A clone taken back: everything handed out since `fs` went back in
`order`. -/
structure Undone (tables : Set UInt64) (words : Words) (room : Room) (fs : List UInt64)
    (v : View) (order fs' : List UInt64) (v' : View) : Prop where
  source : ∀ f ∈ tables, v'.words f = words f
  old : ∀ f ∈ fs, v'.words f = v.words f
  allocated : v'.allocated = fs ++ fs'
  fresh : ∀ f ∈ fs', f ∉ tables
  nodup : (fs ++ fs').Nodup
  grow : v.replies <+: v'.replies
  perm : order.Perm fs'
  released : v'.released = order
  rooms : ∀ p f q, order = p ++ f :: q → room v'.replies p f

/-- Giving back everything handed out since `fs`, in `order`, stopped at a
frame without room. -/
structure StuckIn (room : Room) (fs order : List UInt64) (v' : View) : Prop where
  stuck : ∃ p f q, order = p ++ f :: q ∧ v'.released = p ∧ ¬ room v'.replies p f
  books : ∃ fs', v'.allocated = fs ++ fs' ∧ (fs ++ fs').Nodup ∧ order.Perm fs'

/-- The postcondition of a clone. -/
def ClonePost (tables : Set UInt64) (words : Words) (room : Room) (limit level : Nat)
    (source : UInt64) (path fs : List UInt64) (v : View)
    (r : Except CloneError UInt64 × CloneState) (v' : View) : Prop :=
  (∃ root order fs', r.1 = .ok root ∧ r.2.count = (fs ++ fs').length ∧
    r.2.ancestors.toList.take (4 - level) = path ∧
    Built tables words level source fs v root order fs' v' ∧
    Planned v' (fun frames => planTable words frames limit level source path fs.length)
      (.built root order, (fs ++ fs').length)) ∨
  (∃ e order fs' n, r.1 = .error e ∧ Undone tables words room fs v order fs' v' ∧
    Planned v' (fun frames => planTable words frames limit level source path fs.length)
      (.undone e order, n))

/-- The panic condition of a clone. -/
def CloneStuck (words : Words) (room : Room) (limit level : Nat) (source : UInt64)
    (path fs : List UInt64) (v v' : View) : Prop :=
  ∃ e order n, v.replies <+: v'.replies ∧ StuckIn room fs order v' ∧
    Planned v' (fun frames => planTable words frames limit level source path fs.length)
      (.undone e order, n)

/-- `clone` does, at `level`, what the plan says. -/
def ClonesAt (tables : Set UInt64) (words : Words) (room : Room) (ε : Type) (limit level : Nat)
    (clone : UInt64 → CloneState → TableProg (Except CloneError UInt64 × CloneState)) : Prop :=
  ∀ source path fs v st, Ready tables words v fs → sourceTables words level source ⊆ tables →
    st.ancestors.toList.take (4 - level) = path → st.count = fs.length →
    (clone source st).wp (viewSpec tables room ε)
      (fun r v' => ClonePost tables words room limit level source path fs v r v')
      (fun _ v' => CloneStuck words room limit level source path fs v v') v

/-! ## Small facts -/

variable {tables : Set UInt64} {words : Words} {room : Room} {ε : Type} {limit below : Nat}
  {source destination : UInt64} {path fs fs' fsc order closed : List UInt64} {v₀ v v' : View}
  {before rest : List Nat} {i : Nat}

theorem Ready.allocated (h : Ready tables words v fs) : v.allocated = fs := by
  rw [View.allocated, h.replies, List.filterMap_map]
  exact List.filterMap_some

theorem Ready.owned (h : Ready tables words v fs) {f : UInt64} (hf : f ∈ fs) : v.Owned f := by
  refine ⟨?_, ?_⟩
  · rw [h.allocated]
    exact hf
  · rw [h.released]
    exact List.not_mem_nil

theorem View.set_words_ne {frame f : UInt64} (h : f ≠ frame) (index : Nat) (entry : UInt64) :
    (v.set frame index entry).words f = v.words f := by
  funext i
  exact if_neg fun heq => h heq.1

theorem View.set_words_self (v : View) (frame : UInt64) (index : Nat) (entry : UInt64) :
    (v.set frame index entry).words frame index = entry := if_pos ⟨rfl, rfl⟩

theorem View.set_words_other (v : View) (frame : UInt64) {index : Nat} (h : i ≠ index)
    (entry : UInt64) : (v.set frame index entry).words frame i = v.words frame i :=
  if_neg fun heq => h heq.2

/-- Storing into a held frame keeps the invariant. -/
theorem Ready.set (h : Ready tables words v fs) {frame : UInt64} (hframe : frame ∈ fs) (index : Nat)
    (entry : UInt64) : Ready tables words (v.set frame index entry) fs := by
  refine ⟨?_, h.replies, h.fresh, h.nodup, h.released⟩
  intro f hf
  have hne : f ≠ frame := by
    intro heq
    exact h.fresh frame hframe (heq ▸ hf)
  rw [View.set_words_ne hne]
  exact h.source f hf

/-- One more reply, and it is the next of the supply. -/
theorem Agrees.append {frames : Nat → Option UInt64} {reply : Option UInt64} (h : Agrees frames v)
    (hreplies : v'.replies = v.replies ++ [reply]) (hnext : frames v.replies.length = reply) :
    Agrees frames v' := by
  intro i r hi
  rw [hreplies] at hi
  rcases Nat.lt_trichotomy i v.replies.length with hlt | rfl | hgt
  · rw [List.getElem?_append_left hlt] at hi
    exact h i r hi
  · rw [List.getElem?_concat_length] at hi
    rw [hnext]
    exact Option.some.inj hi
  · rw [List.getElem?_eq_none (by rw [List.length_append, List.length_singleton]; omega)] at hi
    cases hi

/-- Agreement with the replies of today includes those of yesterday. -/
theorem Agrees.mono {frames : Nat → Option UInt64} (h : Agrees frames v')
    (hgrow : v.replies <+: v'.replies) : Agrees frames v := by
  intro i r hi
  refine h i r ?_
  obtain ⟨rest, hrest⟩ := hgrow
  obtain ⟨hlt, _⟩ := List.getElem?_eq_some_iff.mp hi
  rw [← hrest, List.getElem?_append_left hlt]
  exact hi

/-- A plan that takes the steps of another one from here on. -/
theorem Planned.of_eq {plan plan' : (Nat → Option UInt64) → Plan × Nat} {result : Plan × Nat}
    (h : Planned v' plan' result) (hgrow : v.replies <+: v'.replies)
    (hplan : ∀ frames, Agrees frames v → plan frames = plan' frames) : Planned v' plan result :=
  fun frames hframes => (hplan frames (hframes.mono hgrow)).trans (h frames hframes)

section Allocating

variable (h : Ready tables words v fs)
include h

theorem Ready.grow (h' : Ready tables words v' (fs ++ fs')) :
    v.replies <+: v'.replies := by
  rw [h.replies, h'.replies, List.map_append]
  exact List.prefix_append _ _

/-- The reply to the next allocation is the plan's next frame. -/
theorem Ready.next {r : Option UInt64}
    (hr : v'.replies = v.replies ++ [r]) : v'.replies[fs.length]? = some r := by
  have hlen : v.replies.length = fs.length := by rw [h.replies, List.length_map]
  rw [hr, ← hlen]
  exact List.getElem?_concat_length

/-- A fresh frame joins the held ones. -/
theorem Ready.allocate {frame : UInt64} (hreplies : v'.replies = v.replies ++ [some frame])
    (hreleased : v'.released = v.released) (hfresh : frame ∉ tables) (hnew : ¬ v.Owned frame)
    (hwords : ∀ f ≠ frame, v'.words f = v.words f) : Ready tables words v' (fs ++ [frame]) := by
  refine ⟨?_, ?_, ?_, ?_, hreleased.trans h.released⟩
  · intro f hf
    have hne : f ≠ frame := fun heq => hfresh (heq ▸ hf)
    rw [hwords f hne]
    exact h.source f hf
  · rw [hreplies, h.replies, List.map_append]
    rfl
  · intro f hf
    rcases List.mem_append.mp hf with hf | hf
    · exact h.fresh f hf
    · rw [List.mem_singleton.mp hf]
      exact hfresh
  · refine List.nodup_append.mpr ⟨h.nodup, List.nodup_singleton _, ?_⟩
    intro f hf g hg heq
    rw [List.mem_singleton.mp hg] at heq
    exact hnew (h.owned (heq ▸ hf))

/-- A clone that is refused its first frame has nothing to give back. -/
theorem Ready.undone_refused
    (hreplies : v'.replies = v.replies ++ [none]) (hreleased : v'.released = v.released)
    (hwords : v'.words = v.words) : Undone tables words room fs v [] [] v' := by
  refine ⟨?_, ?_, ?_, by simp, ?_, ?_, List.Perm.refl _, ?_, fun p f q heq => by simp at heq⟩
  · intro f hf
    rw [hwords]
    exact h.source f hf
  · intro f _
    rw [hwords]
  · rw [View.allocated, hreplies, List.filterMap_append, List.append_nil]
    exact (List.append_nil _).trans h.allocated
  · rw [List.append_nil]
    exact h.nodup
  · rw [hreplies]
    exact List.prefix_append _ _
  · rw [hreleased]
    exact h.released

/-- Nor has one that fails before it asks for it. -/
theorem Ready.undone_nil (room : Room) :
    Undone tables words room fs v [] [] v := by
  refine ⟨h.source, fun _ _ => rfl, ?_, by simp, ?_, List.prefix_rfl, List.Perm.refl _,
    h.released, fun p f q heq => by simp at heq⟩
  · rw [List.append_nil]
    exact h.allocated
  · rw [List.append_nil]
    exact h.nodup

theorem Ready.refuses {level : Nat} {e : CloneError} (st : CloneState)
    (hplan : ∀ frames, planTable words frames limit level source path fs.length =
      (.undone e [], fs.length)) :
    ClonePost tables words room limit level source path fs v (.error e, st) v :=
  .inr ⟨e, [], [], fs.length, rfl, h.undone_nil room, fun frames _ => hplan frames⟩

/-- Zeroing a held table. -/
theorem zero_wp {E : ε → View → Prop} {frame : UInt64} (hframe : frame ∈ fs) :
    (Prog.forEach (fun index => write frame index 0) tableIndices).wp (viewSpec tables room ε)
      (fun _ v' => Ready tables words v' fs ∧ (∀ f ≠ frame, v'.words f = v.words f) ∧
        ∀ i < 512, v'.words frame i = 0) E v := by
  refine Prog.wp_mono (Prog.wp_forEach (fun before v' => Ready tables words v' fs ∧
    (∀ f ≠ frame, v'.words f = v.words f) ∧ ∀ i ∈ before, v'.words frame i = 0)
    ⟨h, fun _ _ => rfl, by simp⟩ ?_) ?_ fun _ _ he => he
  · intro before index after v' hitems ⟨hready, hother, hzero⟩
    have hindex : index < 512 := mem_tableIndices.mp (by rw [hitems]; simp)
    refine write_wp (hready.owned hframe) hindex ⟨hready.set hframe _ _, ?_, ?_⟩
    · intro f hf
      rw [View.set_words_ne hf, hother f hf]
    · intro i hi
      by_cases heq : i = index
      · rw [heq]
        exact View.set_words_self _ _ _ _
      · rw [View.set_words_other _ _ heq]
        rcases List.mem_append.mp hi with hi | hi
        · exact hzero i hi
        · exact absurd (List.mem_singleton.mp hi) heq
  · intro _ v' ⟨hready, hother, hzero⟩
    exact ⟨hready, hother, fun i hi => hzero i (mem_tableIndices.mpr hi)⟩

end Allocating

/-! ## The copy loop -/

/-- The copy loop between two entries: the entries `before` are done, the rest
are zero, and `closed` are the tables of the finished children. -/
structure Partial (tables : Set UInt64) (words : Words) (below : Nat)
    (source destination : UInt64) (fs : List UInt64) (v₀ : View) (before rest : List Nat)
    (closed fsc : List UInt64) (v : View) : Prop where
  ready : Ready tables words v (fs ++ destination :: fsc)
  old : ∀ f ∈ fs, v.words f = v₀.words f
  perm : closed.Perm fsc
  done : ∀ i ∈ before, CopiesEntry words v.words below source destination i
  zero : ∀ i ∈ rest, v.words destination i = 0
  journal : before.flatMap (fun i => entryFrames v.words below (v.words destination i)) = closed

/-- The loop failed: what the failed child held is back in `order`, and the
half-built table links exactly the finished children. -/
structure HalfDone (tables : Set UInt64) (words : Words) (room : Room) (below : Nat)
    (destination : UInt64) (fs : List UInt64) (v₀ : View) (order closed fsc : List UInt64)
    (v : View) : Prop where
  source : ∀ f ∈ tables, v.words f = words f
  old : ∀ f ∈ fs, v.words f = v₀.words f
  allocated : v.allocated = fs ++ destination :: fsc
  fresh : ∀ f ∈ destination :: fsc, f ∉ tables
  nodup : (fs ++ destination :: fsc).Nodup
  grow : v₀.replies <+: v.replies
  perm : (order ++ (closed ++ [destination])).Perm (destination :: fsc)
  released : v.released = order
  rooms : ∀ p f q, order = p ++ f :: q → room v.replies p f
  tree : treeFrames v.words (below + 1) destination = closed ++ [destination]

section Reached

variable (h : Partial tables words below source destination fs v₀ before rest closed fsc v)
include h

/-- The journal: a half-built table is a tree of the finished children. -/
theorem Partial.tree (hall : tableIndices = before ++ rest) :
    treeFrames v.words (below + 1) destination = closed ++ [destination] := by
  have hrest : rest.flatMap (fun i => entryFrames v.words below (v.words destination i)) = [] := by
    rw [List.flatMap_eq_nil_iff]
    intro i hi
    rw [h.zero i hi]
    exact entryFrames_zero _ _
  rw [treeFrames_succ, hall, List.flatMap_append, h.journal, hrest, List.append_nil]

/-- Tables of finished children are held, and are not the table itself. -/
theorem Partial.closed_mem {f : UInt64} (hf : f ∈ closed) :
    f ∈ fs ++ destination :: fsc ∧ f ≠ destination := by
  have hmem := h.perm.mem_iff.mp hf
  refine ⟨by simp [hmem], ?_⟩
  intro heq
  have hnodup := (List.nodup_append.mp h.ready.nodup).2.1
  exact (List.nodup_cons.mp hnodup).1 (heq ▸ hmem)

theorem Partial.mem_closed (hi : i ∈ before) {f : UInt64}
    (hf : f ∈ entryFrames v.words below (v.words destination i)) : f ∈ closed := by
  rw [← h.journal]
  exact List.mem_flatMap.mpr ⟨i, hi, hf⟩

end Reached

section Next

variable (h : Partial tables words below source destination fs v₀ before (i :: rest) closed fsc v)
include h

/-- Storing the replacement of entry `i`, whose tables are `order`. -/
theorem Partial.store (hbefore : i ∉ before) (hrest : i ∉ rest)
    (hready : Ready tables words v' (fs ++ destination :: (fsc ++ fs')))
    (hsame : ∀ f ∈ fs ++ destination :: fsc, v'.words f = v.words f) {entry : UInt64}
    (hperm : order.Perm fs') (hentry : entryFrames v'.words below entry = order)
    (hcopy : CopiesEntry words (v'.set destination i entry).words below source destination i) :
    Partial tables words below source destination fs v₀ (before ++ [i]) rest (closed ++ order)
      (fsc ++ fs') (v'.set destination i entry) := by
  have hnodup := (List.nodup_append.mp hready.nodup)
  have hdest := (List.nodup_cons.mp hnodup.2.1).1
  -- a finished child keeps its tables and its entry
  have hkeep : ∀ f ∈ closed, (v'.set destination i entry).words f = v.words f := by
    intro f hf
    obtain ⟨hmem, hne⟩ := h.closed_mem hf
    rw [View.set_words_ne hne, hsame f hmem]
  have hlink : ∀ j ∈ before,
      (v'.set destination i entry).words destination j = v.words destination j := by
    intro j hj
    have hji : j ≠ i := fun heq => hbefore (heq ▸ hj)
    rw [View.set_words_other _ _ hji, hsame destination (by simp)]
  refine ⟨hready.set (by simp) _ _, ?_, h.perm.append hperm, ?_, ?_, ?_⟩
  · intro f hf
    have hne : f ≠ destination := fun heq =>
      hnodup.2.2 f hf destination List.mem_cons_self heq
    rw [View.set_words_ne hne, hsame f (List.mem_append_left _ hf), h.old f hf]
  · intro j hj
    rcases List.mem_append.mp hj with hj | hj
    · refine (h.done j hj).congr (hlink j hj) fun f hf k _ => ?_
      rw [hkeep f (h.mem_closed hj hf)]
    · rw [List.mem_singleton.mp hj]
      exact hcopy
  · intro j hj
    have hji : j ≠ i := fun heq => hrest (heq ▸ hj)
    rw [View.set_words_other _ _ hji, hsame destination (by simp)]
    exact h.zero j (List.mem_cons_of_mem _ hj)
  · rw [List.flatMap_append, List.flatMap_cons, List.flatMap_nil, List.append_nil]
    congr 1
    · rw [← h.journal]
      refine List.flatMap_congr fun j hj => ?_
      rw [hlink j hj]
      refine entryFrames_congr fun f hf k _ => ?_
      rw [hkeep f (h.mem_closed hj hf)]
    · rw [View.set_words_self, ← hentry]
      refine entryFrames_congr fun f hf k _ => ?_
      rw [hentry] at hf
      have hne : f ≠ destination := fun heq =>
        hdest (heq ▸ List.mem_append_right _ (hperm.mem_iff.mp hf))
      rw [View.set_words_ne hne]

/-- An entry that is no link is stored as it is. -/
theorem Partial.keep (hbefore : i ∉ before) (hrest : i ∉ rest)
    (hkind : entryKind (below + 1) (words source i) = .keep) :
    Partial tables words below source destination fs v₀ (before ++ [i]) rest closed fsc
      (v.set destination i (words source i)) := by
  have hno := not_isTable_of_keep hkind
  have hready := h.ready
  rw [← List.append_nil fsc] at hready
  have := h.store hbefore hrest hready (fun _ _ => rfl) (List.Perm.refl [])
    (if_neg hno : entryFrames v.words below (words source i) = []) (by
      unfold CopiesEntry
      rw [if_neg hno]
      exact View.set_words_self _ _ _ _)
  simpa using this

/-- A link is stored once its child is built. -/
theorem Partial.link (hbefore : i ∉ before) (hrest : i ∉ rest) {frame root : UInt64}
    (hkind : entryKind (below + 1) (words source i) = .table frame)
    (hbuilt : Built tables words below frame (fs ++ destination :: fsc) v root order fs' v') :
    Partial tables words below source destination fs v₀ (before ++ [i]) rest (closed ++ order)
      (fsc ++ fs') (v'.set destination i ((words source i &&& ~~~ADDRESS) ||| root)) := by
  obtain ⟨hlevel, htable, rfl⟩ := entryKind_table hkind
  have hflags : ((words source i &&& ~~~ADDRESS) ||| root) &&& ~~~ADDRESS =
      words source i &&& ~~~ADDRESS := writeField_and_not_mask hbuilt.valid.and_not_address
  have haddress : ((words source i &&& ~~~ADDRESS) ||| root) &&& ADDRESS = root :=
    writeField_and_mask hbuilt.valid.and_not_address
  have hready := hbuilt.ready
  rw [List.append_assoc, List.cons_append] at hready
  have hdest : destination ∉ order := by
    intro hmem
    have hcons := (List.nodup_append.mp hready.nodup).2.1
    exact (List.nodup_cons.mp hcons).1
      (List.mem_append_right _ (hbuilt.perm.mem_iff.mp hmem))
  refine h.store hbefore hrest hready hbuilt.old hbuilt.perm ?_ ?_
  · rw [entryFrames, if_pos ⟨hlevel, (isTable_congr hflags).mpr htable⟩, haddress]
    exact hbuilt.tree
  · unfold CopiesEntry
    rw [if_pos ⟨hlevel, htable⟩, View.set_words_self, haddress]
    refine ⟨hflags, hbuilt.copies.congr below fun f hf k _ => ?_⟩
    rw [hbuilt.tree] at hf
    have hne : f ≠ destination := fun heq => hdest (heq ▸ hf)
    rw [View.set_words_ne hne]

end Next

/-- The loop's part of the plan, under the frame supply `frames`. -/
def loopPlan (words : Words) (limit below : Nat) (source destination : UInt64)
    (path : List UInt64) (rest : List Nat) (closed : List UInt64) (count : Nat)
    (frames : Nat → Option UInt64) : Plan × Nat :=
  planEntries words (below + 1) (fun frame n => planTable words frames limit below frame path n)
    source destination rest closed count

section LoopPlan

variable {count : Nat} {frames : Nat → Option UInt64}

theorem loopPlan_keep (h : entryKind (below + 1) (words source i) = .keep) :
    loopPlan words limit below source destination path (i :: rest) closed count frames =
      loopPlan words limit below source destination path rest closed count frames := by
  unfold loopPlan
  rw [planEntries, h]

theorem loopPlan_bad (h : entryKind (below + 1) (words source i) = .bad) :
    loopPlan words limit below source destination path (i :: rest) closed count frames =
      (.undone .invalidHugePage (closed ++ [destination]), count) := by
  unfold loopPlan
  rw [planEntries, h]

theorem loopPlan_undone {frame : UInt64} {e : CloneError} {n : Nat}
    (h : entryKind (below + 1) (words source i) = .table frame)
    (hchild : planTable words frames limit below frame path count = (.undone e order, n)) :
    loopPlan words limit below source destination path (i :: rest) closed count frames =
      (.undone e (order ++ (closed ++ [destination])), n) := by
  unfold loopPlan
  rw [planEntries, h]
  simp only [hchild]

theorem loopPlan_built {frame root : UInt64} {n : Nat}
    (h : entryKind (below + 1) (words source i) = .table frame)
    (hchild : planTable words frames limit below frame path count = (.built root order, n)) :
    loopPlan words limit below source destination path (i :: rest) closed count frames =
      loopPlan words limit below source destination path rest (closed ++ order) n frames := by
  unfold loopPlan
  rw [planEntries, h]
  simp only [hchild]

theorem planTable_succ : planTable words frames limit (below + 1) source path count =
    if ¬ ValidFrame source then (.undone .invalidFrame [], count)
    else if source ∈ path then (.undone .cycle [], count)
    else if count = limit then (.undone .tableLimit [], count)
    else
      match frames count with
      | none => (.undone .outOfMemory [], count)
      | some destination =>
          if ¬ ValidFrame destination then (.undone .invalidFrame [destination], count + 1)
          else loopPlan words limit below source destination (path ++ [source]) tableIndices []
            (count + 1) frames := rfl

/-- What is left of the plan once the checks have passed. -/
theorem planTable_passed (hvalid : ValidFrame source) (hcycle : source ∉ path)
    (hlimit : count ≠ limit) : planTable words frames limit (below + 1) source path count =
      (frames count).elim (.undone .outOfMemory [], count) fun destination =>
        if ¬ ValidFrame destination then (.undone .invalidFrame [destination], count + 1)
        else loopPlan words limit below source destination (path ++ [source]) tableIndices []
          (count + 1) frames := by
  rw [planTable_succ, if_neg (not_not.mpr hvalid), if_neg hcycle, if_neg hlimit]
  cases frames count <;> rfl

end LoopPlan

/-- The postcondition of the copy loop started at `v`. -/
def EntriesPost (tables : Set UInt64) (words : Words) (room : Room) (limit below : Nat)
    (source destination : UInt64) (path fs : List UInt64) (v₀ : View) (rest : List Nat)
    (closed fsc : List UInt64) (v : View) (r : Except CloneError Unit × CloneState)
    (v' : View) : Prop :=
  v.replies <+: v'.replies ∧
  ((∃ closed' fsc', r.1 = .ok () ∧ r.2.count = (fs ++ destination :: fsc').length ∧
    r.2.ancestors.toList.take (4 - below) = path ∧
    Partial tables words below source destination fs v₀ tableIndices [] closed' fsc' v' ∧
    Planned v' (loopPlan words limit below source destination path rest closed
        (fs ++ destination :: fsc).length)
      (.built destination (closed' ++ [destination]), (fs ++ destination :: fsc').length)) ∨
  (∃ e order closed' fsc' n, r.1 = .error e ∧
    HalfDone tables words room below destination fs v₀ order closed' fsc' v' ∧
    Planned v' (loopPlan words limit below source destination path rest closed
        (fs ++ destination :: fsc).length)
      (.undone e (order ++ (closed' ++ [destination])), n)))

/-- The panic condition of the copy loop started at `v`. -/
def EntriesStuck (words : Words) (room : Room) (limit below : Nat)
    (source destination : UInt64) (path fs : List UInt64) (rest : List Nat)
    (closed fsc : List UInt64) (v v' : View) : Prop :=
  ∃ e order n, v.replies <+: v'.replies ∧ StuckIn room fs order v' ∧
    Planned v' (loopPlan words limit below source destination path rest closed
      (fs ++ destination :: fsc).length) (.undone e order, n)

section Step

variable {closed₁ fsc₁ : List UInt64} {v₁ : View} (hgrow : v.replies <+: v₁.replies)
  (hstep : ∀ frames, Agrees frames v₁ →
    loopPlan words limit below source destination path (i :: rest) closed
        (fs ++ destination :: fsc).length frames =
      loopPlan words limit below source destination path rest closed₁
        (fs ++ destination :: fsc₁).length frames)

include hgrow hstep

/-- The loop over the rest settles the loop over `i :: rest`, when the plan
takes the same step. -/
theorem EntriesPost.cons {r : Except CloneError Unit × CloneState}
    (h : EntriesPost tables words room limit below source destination path fs v₀ rest closed₁
      fsc₁ v₁ r v') :
    EntriesPost tables words room limit below source destination path fs v₀ (i :: rest) closed
      fsc v r v' := by
  obtain ⟨hgrow', hpost⟩ := h
  refine ⟨hgrow.trans hgrow', ?_⟩
  rcases hpost with ⟨closed', fsc', hr, hc, hp, hdone, hloop⟩ |
    ⟨e, order', closed', fsc', n, hr, hhalf, hloop⟩
  · exact .inl ⟨closed', fsc', hr, hc, hp, hdone, hloop.of_eq hgrow' hstep⟩
  · exact .inr ⟨e, order', closed', fsc', n, hr, hhalf, hloop.of_eq hgrow' hstep⟩

theorem EntriesStuck.cons
    (h : EntriesStuck words room limit below source destination path fs rest closed₁ fsc₁ v₁ v') :
    EntriesStuck words room limit below source destination path fs (i :: rest) closed fsc v v' := by
  obtain ⟨e, order, n, hgrow', hstuck, hloop⟩ := h
  exact ⟨e, order, n, hgrow.trans hgrow', hstuck, hloop.of_eq hgrow' hstep⟩

end Step

section GivenUp

variable (h : Partial tables words below source destination fs v₀ before rest closed fsc v)
include h

/-- The tables of the loop, after those of its last child. -/
theorem Partial.perm_append (hperm : order.Perm fs') :
    (order ++ (closed ++ [destination])).Perm (destination :: (fsc ++ fs')) := by
  have hparts : (order ++ (closed ++ [destination])).Perm (fs' ++ (fsc ++ [destination])) :=
    hperm.append (h.perm.append_right _)
  rw [← List.append_assoc fs'] at hparts
  exact hparts.trans ((List.perm_append_singleton _ _).trans (List.perm_append_comm.cons _))

/-- A child that gets stuck leaves the loop stuck. -/
theorem Partial.stuckIn (hstuck : StuckIn room (fs ++ destination :: fsc) order v') :
    StuckIn room fs (order ++ (closed ++ [destination])) v' := by
  obtain ⟨p, f, q, heq, hrel, hroom⟩ := hstuck.stuck
  obtain ⟨fs', hallocated, hnodup, hperm⟩ := hstuck.books
  rw [List.append_assoc, List.cons_append] at hallocated hnodup
  refine ⟨⟨p, f, q ++ (closed ++ [destination]), ?_, hrel, hroom⟩, _, hallocated, hnodup,
    h.perm_append hperm⟩
  rw [heq, List.append_assoc, List.cons_append]

/-- A failed child leaves the loop half done. -/
theorem Partial.halfDone (hall : tableIndices = before ++ rest) (hgrow : v₀.replies <+: v.replies)
    (hundone : Undone tables words room (fs ++ destination :: fsc) v order fs' v') :
    HalfDone tables words room below destination fs v₀ order closed (fsc ++ fs') v' := by
  have hallocated := hundone.allocated
  have hnodup := hundone.nodup
  rw [List.append_assoc, List.cons_append] at hallocated hnodup
  refine ⟨hundone.source, ?_, hallocated, ?_, hnodup, hgrow.trans hundone.grow, ?_,
    hundone.released, hundone.rooms, ?_⟩
  · intro f hf
    rw [hundone.old f (List.mem_append_left _ hf), h.old f hf]
  · intro f hf
    rw [← List.cons_append] at hf
    rcases List.mem_append.mp hf with hf | hf
    · exact h.ready.fresh f (List.mem_append_right _ hf)
    · exact hundone.fresh f hf
  · exact h.perm_append hundone.perm
  · rw [← h.tree hall]
    refine treeFrames_congr _ fun f hf k _ => ?_
    rw [h.tree hall] at hf
    have hmem : f ∈ fs ++ destination :: fsc := by
      rcases List.mem_append.mp hf with hf | hf
      · exact (h.closed_mem hf).1
      · rw [List.mem_singleton.mp hf]
        simp
    rw [hundone.old f hmem]

end GivenUp

/-- **The copy loop** follows its part of the plan, if the children do. -/
theorem cloneEntries_wp
    {child : UInt64 → CloneState → TableProg (Except CloneError UInt64 × CloneState)}
    (hchild : ClonesAt tables words room ε limit below child) (hsource : source ∈ tables)
    (hsub : ∀ i < 512, 1 < below + 1 → IsTable (words source i) →
      sourceTables words below (words source i &&& ADDRESS) ⊆ tables)
    (rest : List Nat) :
    ∀ {before : List Nat} {closed fsc : List UInt64} {v : View} {st : CloneState},
    tableIndices = before ++ rest →
    Partial tables words below source destination fs v₀ before rest closed fsc v →
    v₀.replies <+: v.replies → st.ancestors.toList.take (4 - below) = path →
    st.count = (fs ++ destination :: fsc).length →
    (cloneEntries (below + 1) child source destination rest st).wp (viewSpec tables room ε)
      (fun r v' => EntriesPost tables words room limit below source destination path fs v₀ rest
        closed fsc v r v')
      (fun _ v' => EntriesStuck words room limit below source destination path fs rest closed
        fsc v v') v := by
  induction rest with
  | nil =>
      intro before closed fsc v st hall hpart hgrow hpath hcount
      rw [List.append_nil] at hall
      rw [cloneEntries, Prog.wp_pure]
      refine ⟨List.prefix_rfl, .inl ⟨closed, fsc, rfl, hcount, hpath, ?_, ?_⟩⟩
      · rw [hall]
        exact hpart
      · intro frames _
        rfl
  | cons i rest ih =>
      intro before closed fsc v st hall hpart hgrow hpath hcount
      have hi : i < 512 := mem_tableIndices.mp (by rw [hall]; simp)
      have hsplit : (before ++ i :: rest).Nodup := hall ▸ nodup_tableIndices
      obtain ⟨_, hcons, hdisj⟩ := List.nodup_append.mp hsplit
      have hrest : i ∉ rest := (List.nodup_cons.mp hcons).1
      have hbefore : i ∉ before := fun hmem => hdisj i hmem i List.mem_cons_self rfl
      have hall' : tableIndices = (before ++ [i]) ++ rest := by
        rw [hall, List.append_assoc]
        rfl
      rw [cloneEntries, Prog.wp_bind]
      refine read_wp (.inl hsource) hi ?_
      rw [hpart.ready.source source hsource, Prog.wp_bind, cloneEntry_eq]
      -- the loop over the rest, once entry `i` is stored
      cases hkind : entryKind (below + 1) (words source i) with
      | keep =>
          simp only [Prog.wp_pure, Prog.wp_bind]
          refine write_wp (hpart.ready.owned (by simp)) hi ?_
          refine Prog.wp_mono (ih hall' (hpart.keep hbefore hrest hkind) hgrow hpath hcount)
            (fun r v' hpost => hpost.cons List.prefix_rfl fun frames _ => loopPlan_keep hkind)
            (fun _ v' hstuck => hstuck.cons List.prefix_rfl fun frames _ => loopPlan_keep hkind)
      | bad =>
          simp only [Prog.wp_pure]
          refine ⟨List.prefix_rfl, .inr ⟨_, [], closed, fsc, (fs ++ destination :: fsc).length,
            rfl, ?_, ?_⟩⟩
          · have := hpart.halfDone hall hgrow (hpart.ready.undone_nil room)
            rw [List.append_nil] at this
            exact this
          · intro frames _
            exact loopPlan_bad hkind
      | table frame =>
          obtain ⟨hlevel, htable, hframe⟩ := entryKind_table hkind
          have hsub' : sourceTables words below frame ⊆ tables := by
            rw [hframe]
            exact hsub i hi hlevel htable
          simp only [Prog.wp_bind]
          refine Prog.wp_mono (hchild frame path (fs ++ destination :: fsc) v st hpart.ready
            hsub' hpath hcount) ?_ ?_
          · intro r v₁ hpost
            rcases hpost with ⟨root, order, fs', hr, hcount', hpath', hbuilt, hplan⟩ |
              ⟨e, order, fs', n, hr, hundone, hplan⟩
            · obtain ⟨result, st'⟩ := r
              obtain rfl : result = .ok root := hr
              simp only [Prog.wp_pure, Prog.wp_bind]
              refine write_wp (hbuilt.ready.owned (by simp)) hi ?_
              have hpart' := hpart.link hbefore hrest hkind hbuilt
              have hgrow' := hpart.ready.grow hbuilt.ready
              have hlen : (fs ++ destination :: fsc ++ fs').length =
                  (fs ++ destination :: (fsc ++ fs')).length := by simp
              rw [hlen] at hcount' hplan
              exact Prog.wp_mono (ih hall' hpart' (hgrow.trans hgrow') hpath' hcount')
                (fun r v' hpost => hpost.cons hgrow' fun frames hframes =>
                  loopPlan_built hkind (hplan frames hframes))
                (fun _ v' hstuck => hstuck.cons hgrow' fun frames hframes =>
                  loopPlan_built hkind (hplan frames hframes))
            · obtain ⟨result, st'⟩ := r
              obtain rfl : result = .error e := hr
              simp only [Prog.wp_pure]
              refine ⟨hundone.grow, .inr ⟨e, order, closed, fsc ++ fs', n, rfl,
                hpart.halfDone hall hgrow hundone, fun frames hframes => ?_⟩⟩
              exact loopPlan_undone hkind (hplan frames hframes)
          · rintro _ v' ⟨e, order, n, hgrow', hstuck, hplan⟩
            exact ⟨e, order ++ (closed ++ [destination]), n, hgrow', hpart.stuckIn hstuck,
              fun frames hframes => loopPlan_undone hkind (hplan frames hframes)⟩

/-! ## One table -/

/-- The half-built table goes back after its failed child. -/
theorem HalfDone.undone (h : HalfDone tables words room below destination fs v₀ order closed fsc v)
    (hgives : Gives room v (closed ++ [destination]) v') :
    Undone tables words room fs v₀ (order ++ (closed ++ [destination])) (destination :: fsc)
      v' := by
  have hnew : ∀ f ∈ closed ++ [destination], f ∈ destination :: fsc := fun f hf =>
    h.perm.mem_iff.mp (List.mem_append_right _ hf)
  have hfirst : Gives room { v with released := [] } order v :=
    ⟨rfl, h.released, fun _ _ => rfl, h.rooms⟩
  have htotal := hfirst.append hgives
  have hreplies : v'.replies = v.replies := htotal.replies
  refine ⟨?_, ?_, ?_, h.fresh, h.nodup, ?_, h.perm, htotal.released, ?_⟩
  · intro f hf
    rw [hgives.words f fun hmem => h.fresh f (hnew f hmem) hf]
    exact h.source f hf
  · intro f hf
    rw [hgives.words f fun hmem =>
      (List.nodup_append.mp h.nodup).2.2 f hf f (hnew f hmem) rfl]
    exact h.old f hf
  · unfold View.allocated
    rw [hreplies]
    exact h.allocated
  · rw [hreplies]
    exact h.grow
  · intro p f q heq
    rw [hreplies]
    exact htotal.rooms p f q heq

/-- Giving back the half-built table may get stuck. -/
theorem HalfDone.stuckIn (h : HalfDone tables words room below destination fs v₀ order closed fsc v)
    (hstuck : Stuck room v (closed ++ [destination]) v') :
    StuckIn room fs (order ++ (closed ++ [destination])) v' := by
  have hfirst : Gives room { v with released := [] } order v :=
    ⟨rfl, h.released, fun _ _ => rfl, h.rooms⟩
  have htotal := hfirst.stuck hstuck
  obtain ⟨p, f, q, heq, hrel, hroom⟩ := htotal.stuck
  obtain rfl : v'.released = p := hrel
  refine ⟨⟨_, f, q, heq, rfl, ?_⟩, destination :: fsc, ?_, h.nodup, h.perm⟩
  · rw [htotal.replies]
    exact hroom
  · unfold View.allocated
    rw [htotal.replies]
    exact h.allocated

/-- A single frame just handed out, as a half-built table. -/
theorem Ready.halfDone_single (h : Ready tables words v' (fs ++ [destination]))
    (hgrow : v.replies <+: v'.replies) (hwords : ∀ f ≠ destination, v'.words f = v.words f) :
    HalfDone tables words room 0 destination fs v [] [] [] v' := by
  have hold : ∀ f ∈ fs, v'.words f = v.words f := fun f hf =>
    hwords f ((List.nodup_append.mp h.nodup).2.2 f hf _ List.mem_cons_self)
  refine ⟨h.source, hold, h.allocated, ?_, h.nodup, hgrow, List.Perm.refl _, h.released,
    fun p f q heq => by simp at heq, ?_⟩
  · intro f hf
    exact h.fresh f (List.mem_append_right _ hf)
  · rw [treeFrames_succ]
    congr 1
    rw [List.flatMap_eq_nil_iff]
    intro i _
    exact if_neg fun hlink => absurd hlink.1 (by decide)

/-- The tables of the half-built tree are distinct and held. -/
theorem HalfDone.owned (h : HalfDone tables words room below destination fs v₀ order closed fsc v) :
    (closed ++ [destination]).Nodup ∧ ∀ f ∈ closed ++ [destination], v.Owned f := by
  have hnodup : (order ++ (closed ++ [destination])).Nodup :=
    h.perm.nodup_iff.mpr (List.nodup_append.mp h.nodup).2.1
  obtain ⟨_, hclosed, hdisj⟩ := List.nodup_append.mp hnodup
  refine ⟨hclosed, fun f hf => ⟨?_, ?_⟩⟩
  · rw [h.allocated]
    exact List.mem_append_right _ (h.perm.mem_iff.mp (List.mem_append_right _ hf))
  · rw [h.released]
    intro hmem
    exact hdisj f hmem f hf rfl

/-- So the half-built table can be given back. -/
theorem HalfDone.release
    (h : HalfDone tables words room below destination fs v₀ order closed fsc v) :
    (releaseTree (below + 1) destination).wp (viewSpec tables room ε)
      (fun _ v' => Gives room v (closed ++ [destination]) v')
      (fun _ v' => Stuck room v (closed ++ [destination]) v') v := by
  obtain ⟨hnodup, howned⟩ := h.owned
  rw [← h.tree] at hnodup howned ⊢
  exact releaseTree_wp _ hnodup howned

/-- A finished loop is a built tree. -/
theorem Partial.built
    (h : Partial tables words below source destination fs v₀ tableIndices [] closed fsc v)
    (hvalid : ValidFrame destination) :
    Built tables words (below + 1) source fs v₀ destination (closed ++ [destination])
      (destination :: fsc) v := by
  refine ⟨h.ready, h.old, hvalid, h.tree (List.append_nil _).symm, ?_, ?_⟩
  · exact (List.perm_append_singleton _ _).trans (h.perm.cons _)
  · exact copies_succ.mpr fun i hi => h.done i (mem_tableIndices.mpr hi)

/-- `ancestors[depth] = source` extends the path. -/
theorem take_ancestors (ancestors : Vector UInt64 4) (source : UInt64) {depth : Nat}
    (h : depth < 4) : (ancestors.setIfInBounds depth source).toList.take (depth + 1) =
      ancestors.toList.take depth ++ [source] := by
  have hlen : depth < ancestors.toList.length := by rw [Vector.length_toList]; exact h
  rw [Vector.toList_setIfInBounds, List.take_add_one, List.take_set_of_le (le_refl _),
    List.getElem?_set_self hlen]
  rfl

/-- The path above a table is still there behind its loop. -/
theorem take_of_take_succ {ancestors after : Vector UInt64 4}
    (hpath : ancestors.toList.take (4 - (below + 1)) = path)
    (hafter : after.toList.take (4 - below) = path ++ [source]) :
    after.toList.take (4 - (below + 1)) = path := by
  have hlen : path.length = 4 - (below + 1) := by
    rw [← hpath, List.length_take, Vector.length_toList]
    omega
  have htake := congrArg (List.take (4 - (below + 1))) hafter
  rw [List.take_take, show min (4 - (below + 1)) (4 - below) = 4 - (below + 1) by omega, ← hlen,
    List.take_left] at htake
  rw [← hlen]
  exact htake

/-- The new table, zeroed, is where the loop starts. -/
theorem Ready.partial_nil {v₁ : View} (h₁ : Ready tables words v₁ (fs ++ [destination]))
    (h : Ready tables words v' (fs ++ [destination]))
    (hwords : ∀ f ≠ destination, v₁.words f = v.words f)
    (hother : ∀ f ≠ destination, v'.words f = v₁.words f)
    (hzero : ∀ i < 512, v'.words destination i = 0) :
    Partial tables words below source destination fs v [] tableIndices [] [] v' := by
  refine ⟨h, ?_, List.Perm.refl _, by simp, fun i hi => hzero i (mem_tableIndices.mp hi), rfl⟩
  intro f hf
  have hne : f ≠ destination := (List.nodup_append.mp h₁.nodup).2.2 f hf _ List.mem_cons_self
  rw [hother f hne, hwords f hne]

/-- Once the plan has failed, giving back the half-built table is all that is left. -/
theorem HalfDone.givesBack {giveBack : TableProg Unit} {level n : Nat} {e : CloneError}
    (st : CloneState) (h : HalfDone tables words room below destination fs v₀ order closed fsc v)
    (hplan : Planned v (fun frames => planTable words frames limit level source path fs.length)
      (.undone e (order ++ (closed ++ [destination])), n))
    (hgive : giveBack.wp (viewSpec tables room ε)
      (fun _ v' => Gives room v (closed ++ [destination]) v')
      (fun _ v' => Stuck room v (closed ++ [destination]) v') v) :
    giveBack.wp (viewSpec tables room ε)
      (fun _ v' => ClonePost tables words room limit level source path fs v₀ (.error e, st) v')
      (fun _ v' => CloneStuck words room limit level source path fs v₀ v') v := by
  refine Prog.wp_mono hgive ?_ ?_
  · intro _ v' hgives
    have hsame : v.replies <+: v'.replies := hgives.replies ▸ List.prefix_rfl
    exact .inr ⟨e, _, destination :: fsc, n, rfl, h.undone hgives,
      fun frames hframes => hplan frames (hframes.mono hsame)⟩
  · intro _ v' hstuck
    have hsame : v.replies <+: v'.replies := hstuck.replies ▸ List.prefix_rfl
    exact ⟨e, _, n, h.grow.trans hsame, h.stuckIn hstuck,
      fun frames hframes => hplan frames (hframes.mono hsame)⟩

/-- **A clone follows its plan**, at every level. -/
theorem cloneTable_clonesAt (level : Nat) (hlevel : level ≤ 4) :
    ClonesAt tables words room ε limit level (cloneTable limit level) := by
  induction level with
  | zero =>
      intro source path fs v st hready _ _ _
      exact hready.refuses _ fun _ => rfl
  | succ below ih =>
      intro source path fs v st hready hsub hpath hcount
      unfold cloneTable
      dsimp only
      by_cases hvalid : ValidFrame source
      case neg =>
        rw [if_pos hvalid]
        exact hready.refuses _ fun frames => planTable_succ.trans (if_pos hvalid)
      rw [if_neg (not_not.mpr hvalid), hpath, hcount]
      by_cases hcycle : source ∈ path
      case pos =>
        rw [if_pos hcycle]
        refine hready.refuses _ fun frames => planTable_succ.trans ?_
        rw [if_neg (not_not.mpr hvalid), if_pos hcycle]
      rw [if_neg hcycle]
      by_cases hlimit : fs.length = limit
      case pos =>
        rw [if_pos hlimit]
        refine hready.refuses _ fun frames => planTable_succ.trans ?_
        rw [if_neg (not_not.mpr hvalid), if_neg hcycle, if_pos hlimit]
      rw [if_neg hlimit, Prog.wp_bind]
      refine allocate_wp hready.released ?_ ?_
      · intro v' hreplies hreleased hwords
        refine .inr ⟨_, [], [], fs.length, rfl, hready.undone_refused hreplies hreleased hwords,
          fun frames hframes => ?_⟩
        dsimp only
        rw [planTable_passed hvalid hcycle hlimit, hframes _ _ (hready.next hreplies),
          Option.elim_none]
      · intro destination v₁ hreplies hreleased hfresh hnew hwords
        have hready₁ : Ready tables words v₁ (fs ++ [destination]) :=
          hready.allocate hreplies hreleased hfresh hnew hwords
        have hmem : destination ∈ fs ++ [destination] := by simp
        have hgrow : v.replies <+: v₁.replies := hready.grow hready₁
        -- what the plan does with this frame, for replies from here on
        have hplan : ∀ frames, Agrees frames v₁ →
            planTable words frames limit (below + 1) source path fs.length =
              if ¬ ValidFrame destination then
                (.undone .invalidFrame [destination], fs.length + 1)
              else loopPlan words limit below source destination (path ++ [source])
                tableIndices [] (fs.length + 1) frames := by
          intro frames hframes
          rw [planTable_passed hvalid hcycle hlimit, hframes _ _ (hready.next hreplies),
            Option.elim_some]
        dsimp only
        by_cases hdest : ValidFrame destination
        case neg =>
          rw [if_pos hdest, Prog.wp_bind]
          exact (hready₁.halfDone_single hgrow hwords).givesBack _
            (fun frames hframes => (hplan frames hframes).trans (if_pos hdest))
            (release_gives (hready₁.owned hmem))
        rw [if_neg (not_not.mpr hdest), Prog.wp_bind]
        refine Prog.wp_mono (zero_wp hready₁ hmem) ?_ fun _ _ h => h
        rintro _ v₂ ⟨hready₂, hother, hzero⟩
        rw [Prog.wp_bind]
        have hgrow₁ : v₁.replies <+: v₂.replies := by rw [hready₁.replies, hready₂.replies]
        have hloop : ∀ frames, Agrees frames v₂ →
            planTable words frames limit (below + 1) source path fs.length =
              loopPlan words limit below source destination (path ++ [source]) tableIndices []
                (fs ++ [destination]).length frames := by
          intro frames hframes
          rw [hplan frames (hframes.mono hgrow₁), if_neg (not_not.mpr hdest),
            List.length_append, List.length_singleton]
        have hpath₂ : (st.ancestors.setIfInBounds (4 - (below + 1)) source).toList.take
            (4 - below) = path ++ [source] := by
          rw [show 4 - below = 4 - (below + 1) + 1 by omega, take_ancestors _ _ (by omega), hpath]
        have hsource : source ∈ tables := hsub ⟨hvalid, .inl rfl⟩
        refine Prog.wp_mono (cloneEntries_wp (ih (by omega)) hsource
          (fun i hi hl ht f hf => hsub ⟨hvalid, .inr ⟨hl, i, hi, ht, hf⟩⟩) tableIndices rfl
          (hready₁.partial_nil hready₂ hwords hother hzero) (hgrow.trans hgrow₁) hpath₂
          (by simp)) ?_ ?_
        · rintro r v₃ ⟨hgrow₃, hpost⟩
          obtain ⟨result, st₃⟩ := r
          rcases hpost with ⟨closed, fsc, hr, hcount₃, hpath₃, hdone, hplan₃⟩ |
            ⟨e, order, closed, fsc, n, hr, hhalf, hplan₃⟩
          · obtain rfl : result = .ok () := hr
            exact .inl ⟨destination, closed ++ [destination], destination :: fsc, rfl, hcount₃,
              take_of_take_succ hpath hpath₃, hdone.built hdest, hplan₃.of_eq hgrow₃ hloop⟩
          · obtain rfl : result = .error e := hr
            simp only [Prog.wp_bind, Prog.wp_pure]
            exact hhalf.givesBack _ (hplan₃.of_eq hgrow₃ hloop) hhalf.release
        · rintro _ v' ⟨e, order, n, hgrow₃, hstuck, hplan₃⟩
          exact ⟨e, order, n, (hgrow.trans hgrow₁).trans hgrow₃, hstuck,
            hplan₃.of_eq hgrow₃ hloop⟩

/-! ## The root -/

/-- The view before anything was asked for. -/
def View.fresh (words : Words) : View := ⟨words, [], []⟩

/-- The postcondition of `cloneRoot`. -/
def RootPost (tables : Set UInt64) (words : Words) (room : Room) (limit : Nat)
    (source : UInt64) (r : Except CloneError OwnedRoot) (v' : View) : Prop :=
  (∃ root order fs' n, r = .ok ⟨root, fs'.length⟩ ∧
    Built tables words 4 source [] (View.fresh words) root order fs' v' ∧
    Planned v' (fun frames => planTable words frames limit 4 source [] 0) (.built root order, n)) ∨
  (∃ e order fs' n, r = .error e ∧
    Undone tables words room [] (View.fresh words) order fs' v' ∧
    Planned v' (fun frames => planTable words frames limit 4 source [] 0) (.undone e order, n))

theorem cloneRoot_wp {tables : Set UInt64} {words : Words} {room : Room} {ε : Type} {limit : Nat}
    {source : UInt64} (hsub : sourceTables words 4 source ⊆ tables) :
    (cloneRoot limit source).wp (viewSpec tables room ε)
      (fun r v' => RootPost tables words room limit source r v')
      (fun _ v' => CloneStuck words room limit 4 source [] [] (View.fresh words) v')
      (View.fresh words) := by
  have hready : Ready tables words (View.fresh words) [] :=
    ⟨fun _ _ => rfl, rfl, by simp, List.nodup_nil, rfl⟩
  rw [cloneRoot, Prog.wp_bind]
  refine Prog.wp_mono (cloneTable_clonesAt 4 (le_refl 4) source [] [] (View.fresh words) _ hready
    hsub rfl rfl) ?_ fun _ _ h => h
  intro r v' hpost
  obtain ⟨result, st⟩ := r
  rcases hpost with ⟨root, order, fs', hr, hcount, _, hbuilt, hplan⟩ |
    ⟨e, order, fs', n, hr, hundone, hplan⟩
  · obtain rfl : result = .ok root := hr
    refine .inl ⟨root, order, fs', _, ?_, hbuilt, hplan⟩
    have hcount' : st.count = fs'.length := hcount
    rw [hcount']
  · obtain rfl : result = .error e := hr
    exact .inr ⟨e, order, fs', n, rfl, hundone, hplan⟩

end GenericKernel.Paging
