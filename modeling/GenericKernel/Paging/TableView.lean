import GenericKernel.Paging.TableTree

/-!
# The clone's view of table memory

`View` is what a clone knows of the memory it runs on: the contents of tables,
the replies to its allocations and the frames it has given back. `viewSpec`
says what each operation requires and does. A table may be read if it is an
initialised table or a frame the clone holds; only frames the clone holds may
be written or given back; nothing is allocated once a frame went back. Giving a
frame back may fail where `room` is missing.

`releaseTree_wp` is the specification of `release_tree`: it gives back exactly
`treeFrames`, in that order.
-/

namespace GenericKernel.Paging

open GenericKernel.Lib

/-- Contents, replies to `allocate` so far, and frames given back so far. -/
structure View where
  words : Words
  replies : List (Option UInt64)
  released : List UInt64

namespace View

/-- Frames handed out, in order. -/
def allocated (v : View) : List UInt64 := v.replies.filterMap id

/-- Handed out and not given back. -/
def Owned (v : View) (frame : UInt64) : Prop := frame ∈ v.allocated ∧ frame ∉ v.released

/-- Store one entry. -/
def set (v : View) (frame : UInt64) (index : Nat) (entry : UInt64) : View :=
  { v with words := fun f i => if f = frame ∧ i = index then entry else v.words f i }

end View

theorem View.owned_allocate {v v' : View} {frame f : UInt64}
    (hreplies : v'.replies = v.replies ++ [some frame]) (hreleased : v'.released = v.released)
    (hstart : v.released = []) : v'.Owned f ↔ f = frame ∨ v.Owned f := by
  unfold View.Owned View.allocated
  rw [hreplies, hreleased, hstart, List.filterMap_append]
  simp [or_comm]

theorem View.owned_release {v v' : View} {frame f : UInt64} (hreplies : v'.replies = v.replies)
    (hreleased : v'.released = v.released ++ [frame]) :
    v'.Owned f ↔ v.Owned f ∧ f ≠ frame := by
  unfold View.Owned View.allocated
  rw [hreplies, hreleased]
  simp [and_assoc]

/-- Whether a frame can be given back, from the replies to `allocate` and the
frames given back before. -/
abbrev Room := List (Option UInt64) → List UInt64 → UInt64 → Prop

/-- The operations as a clone sees them, over the initialised tables
`tables`. -/
def viewSpec (tables : Set UInt64) (room : Room) (ε : Type) : Spec TableOp.Reply View ε where
  pre v
    | .allocate => v.released = []
    | .release frame => v.Owned frame
    | .read frame index => (frame ∈ tables ∨ v.Owned frame) ∧ index < 512
    | .write frame index _ => v.Owned frame ∧ index < 512
  post v
    | .allocate => fun reply v' =>
        v'.replies = v.replies ++ [reply] ∧ v'.released = v.released ∧
        match reply with
        | none => v'.words = v.words
        | some frame => frame ∉ tables ∧ ¬ v.Owned frame ∧ ∀ f ≠ frame, v'.words f = v.words f
    | .release frame => fun _ v' =>
        room v.replies v.released frame ∧ v'.replies = v.replies ∧
        v'.released = v.released ++ [frame] ∧ ∀ f ≠ frame, v'.words f = v.words f
    | .read frame index => fun entry v' => entry = v.words frame index ∧ v' = v
    | .write frame index entry => fun _ v' => v' = v.set frame index entry
  fail v op _ :=
    match op with
    | .release frame => ¬ room v.replies v.released frame
    | _ => False

section Rules

variable {tables : Set UInt64} {room : Room} {ε : Type} {E : ε → View → Prop} {v : View}

theorem read_wp {frame : UInt64} {index : Nat} {Q : UInt64 → View → Prop}
    (hframe : frame ∈ tables ∨ v.Owned frame) (hindex : index < 512)
    (h : Q (v.words frame index) v) :
    (read frame index).wp (viewSpec tables room ε) Q E v := by
  refine ⟨⟨hframe, hindex⟩, ?_, fun e he => he.elim⟩
  intro r v' hpost
  obtain ⟨rfl, rfl⟩ := hpost
  exact h

theorem write_wp {frame : UInt64} {index : Nat} {entry : UInt64} {Q : Unit → View → Prop}
    (hframe : v.Owned frame) (hindex : index < 512) (h : Q () (v.set frame index entry)) :
    (write frame index entry).wp (viewSpec tables room ε) Q E v := by
  refine ⟨⟨hframe, hindex⟩, ?_, fun e he => he.elim⟩
  intro r v' hpost
  obtain rfl : v' = v.set frame index entry := hpost
  exact h

theorem release_wp {frame : UInt64} {Q : Unit → View → Prop} (hframe : v.Owned frame)
    (h : ∀ v' : View, room v.replies v.released frame → v'.replies = v.replies →
      v'.released = v.released ++ [frame] → (∀ f ≠ frame, v'.words f = v.words f) → Q () v')
    (hE : ∀ e, ¬ room v.replies v.released frame → E e v) :
    (release frame).wp (viewSpec tables room ε) Q E v := by
  refine ⟨hframe, ?_, fun e he => hE e he⟩
  intro r v' hpost
  exact h v' hpost.1 hpost.2.1 hpost.2.2.1 hpost.2.2.2

theorem allocate_wp {Q : Option UInt64 → View → Prop} (hstart : v.released = [])
    (hnone : ∀ v' : View, v'.replies = v.replies ++ [none] → v'.released = v.released →
      v'.words = v.words → Q none v')
    (hsome : ∀ (frame : UInt64) (v' : View), v'.replies = v.replies ++ [some frame] →
      v'.released = v.released → frame ∉ tables → ¬ v.Owned frame →
      (∀ f ≠ frame, v'.words f = v.words f) → Q (some frame) v') :
    allocate.wp (viewSpec tables room ε) Q E v := by
  refine ⟨hstart, ?_, fun e he => he.elim⟩
  intro r v' hpost
  obtain ⟨hreplies, hreleased, hwords⟩ := hpost
  cases r with
  | none => exact hnone v' hreplies hreleased hwords
  | some frame => exact hsome frame v' hreplies hreleased hwords.1 hwords.2.1 hwords.2.2

end Rules

/-! ## Giving frames back -/

/-- From `v` to `v'` exactly the frames of `order` went back, each with room,
and no other table changed. -/
structure Gives (room : Room) (v : View) (order : List UInt64) (v' : View) : Prop where
  replies : v'.replies = v.replies
  released : v'.released = v.released ++ order
  words : ∀ f, f ∉ order → v'.words f = v.words f
  rooms : ∀ p f q, order = p ++ f :: q → room v.replies (v.released ++ p) f

/-- From `v` on, `order` was being given back when a frame found no room. -/
structure Stuck (room : Room) (v : View) (order : List UInt64) (v' : View) : Prop where
  replies : v'.replies = v.replies
  stuck : ∃ p f q, order = p ++ f :: q ∧ v'.released = v.released ++ p ∧
    ¬ room v.replies v'.released f

section GivesStuck

variable {room : Room} {v v₁ v₂ : View} {order order' : List UInt64}

theorem Gives.nil : Gives room v [] v :=
  ⟨rfl, (List.append_nil _).symm, fun _ _ => rfl, fun p f q h => by simp at h⟩

theorem Gives.owned (h : Gives room v order v₁) {f : UInt64} (hf : v.Owned f)
    (hnot : f ∉ order) : v₁.Owned f := by
  refine ⟨?_, ?_⟩
  · unfold View.allocated
    rw [h.replies]
    exact hf.1
  · rw [h.released]
    intro hmem
    rcases List.mem_append.mp hmem with hmem | hmem
    · exact hf.2 hmem
    · exact hnot hmem

theorem Gives.append (h : Gives room v order v₁) (h' : Gives room v₁ order' v₂) :
    Gives room v (order ++ order') v₂ := by
  refine ⟨h'.replies.trans h.replies, ?_, ?_, ?_⟩
  · rw [h'.released, h.released, List.append_assoc]
  · intro f hf
    rw [List.mem_append, not_or] at hf
    rw [h'.words f hf.2, h.words f hf.1]
  · intro p f q heq
    rcases List.append_eq_append_iff.mp heq with ⟨r, rfl, hr⟩ | ⟨r, hr, hr'⟩
    · have := h'.rooms r f q hr
      rw [h.replies, h.released, List.append_assoc] at this
      exact this
    · cases r with
      | nil =>
          rw [List.append_nil] at hr
          rw [List.nil_append] at hr'
          subst hr
          have := h'.rooms [] f q hr'.symm
          rw [h.replies, h.released, List.append_nil] at this
          exact this
      | cons g r =>
          rw [List.cons_append] at hr'
          obtain ⟨rfl, _⟩ := List.cons.inj hr'
          exact h.rooms p f r hr

theorem Stuck.append (h : Stuck room v order v₁) (order' : List UInt64) :
    Stuck room v (order ++ order') v₁ := by
  obtain ⟨p, f, q, rfl, hrel, hroom⟩ := h.stuck
  exact ⟨h.replies, p, f, q ++ order', by simp, hrel, hroom⟩

theorem Gives.stuck (h : Gives room v order v₁) (h' : Stuck room v₁ order' v₂) :
    Stuck room v (order ++ order') v₂ := by
  obtain ⟨p, f, q, rfl, hrel, hroom⟩ := h'.stuck
  refine ⟨h'.replies.trans h.replies, order ++ p, f, q, by simp, ?_, ?_⟩
  · rw [hrel, h.released, List.append_assoc]
  · rw [← h.replies]
    exact hroom

end GivesStuck

/-- Giving back one frame the clone holds. -/
theorem release_gives {tables : Set UInt64} {room : Room} {ε : Type} {v : View}
    {frame : UInt64} (howned : v.Owned frame) :
    (release frame).wp (viewSpec tables room ε) (fun _ v' => Gives room v [frame] v')
      (fun _ v' => Stuck room v [frame] v') v := by
  refine release_wp howned ?_ ?_
  · intro v' hroom hreplies hreleased hwords
    refine ⟨hreplies, hreleased, fun f hf => hwords f (by simpa using hf), ?_⟩
    intro p f q heq
    cases p with
    | nil =>
        obtain ⟨rfl, _⟩ := List.cons.inj heq
        rw [List.append_nil]
        exact hroom
    | cons g p => simp at heq
  · intro e hroom
    exact ⟨rfl, [], frame, [], rfl, (List.append_nil _).symm, hroom⟩

/-- **`release_tree`** gives back exactly the tables of the tree, children
first, as long as there is room. -/
theorem releaseTree_wp {tables : Set UInt64} {room : Room} {ε : Type} (level : Nat) :
    ∀ {v : View} {frame : UInt64}, (treeFrames v.words level frame).Nodup →
    (∀ f ∈ treeFrames v.words level frame, v.Owned f) →
    (releaseTree level frame).wp (viewSpec tables room ε)
      (fun _ v' => Gives room v (treeFrames v.words level frame) v')
      (fun _ v' => Stuck room v (treeFrames v.words level frame) v') v := by
  induction level with
  | zero =>
      intro v frame _ howned
      exact release_gives (howned frame (mem_treeFrames_self _ _ _))
  | succ below ih =>
      intro v frame hnodup howned
      have hself := howned frame (mem_treeFrames_self _ _ _)
      rw [treeFrames_succ] at hnodup howned ⊢
      obtain ⟨hchildren, _, hout⟩ := List.nodup_append.mp hnodup
      -- what is left is the loop over the children, then the frame itself
      have hlast : ∀ v', Gives room v (tableIndices.flatMap fun index =>
          entryFrames v.words below (v.words frame index)) v' →
          (release frame).wp (viewSpec tables room ε)
            (fun _ v' => Gives room v (tableIndices.flatMap (fun index =>
              entryFrames v.words below (v.words frame index)) ++ [frame]) v')
            (fun _ v' => Stuck room v (tableIndices.flatMap (fun index =>
              entryFrames v.words below (v.words frame index)) ++ [frame]) v') v' := by
        intro v' hgives
        have hnot : frame ∉ tableIndices.flatMap fun index =>
            entryFrames v.words below (v.words frame index) := by
          intro hmem
          exact hout frame hmem frame List.mem_cons_self rfl
        refine Prog.wp_mono (release_gives (hgives.owned hself hnot)) ?_ ?_
        · intro _ v'' h
          exact hgives.append h
        · intro _ v'' h
          exact hgives.stuck h
      unfold releaseTree
      by_cases hlevel : 1 < below + 1
      · rw [if_pos hlevel, Prog.wp_bind]
        refine Prog.wp_mono (Prog.wp_forEach (fun before v' => Gives room v
          (before.flatMap fun index => entryFrames v.words below (v.words frame index)) v')
          Gives.nil ?_) (fun _ v' h => hlast v' h) (fun _ _ h => h)
        intro before index after v' hitems hgives
        -- the loop has given back the children below `index`, and no others
        have hindex : index < 512 := mem_tableIndices.mp (by rw [hitems]; simp)
        rw [hitems, List.flatMap_append, List.flatMap_cons] at hchildren hout howned ⊢
        obtain ⟨_, hrest, hbefore⟩ := List.nodup_append.mp hchildren
        have hframe : frame ∉ before.flatMap fun index =>
            entryFrames v.words below (v.words frame index) := by
          intro hmem
          exact hout frame (List.mem_append_left _ hmem) frame List.mem_cons_self rfl
        rw [List.flatMap_append, List.flatMap_cons, List.flatMap_nil, List.append_nil,
          Prog.wp_bind]
        refine read_wp (.inr (hgives.owned hself hframe)) hindex ?_
        rw [hgives.words frame hframe]
        by_cases htable : IsTable (v.words frame index)
        · have hentry : entryFrames v.words below (v.words frame index) =
              treeFrames v.words below (v.words frame index &&& ADDRESS) :=
            if_pos ⟨hlevel, htable⟩
          rw [hentry] at hbefore hrest howned ⊢
          have hapart : ∀ f ∈ treeFrames v.words below (v.words frame index &&& ADDRESS),
              f ∉ before.flatMap fun index =>
                entryFrames v.words below (v.words frame index) := by
            intro f hf hmem
            exact hbefore f hmem f (List.mem_append_left _ hf) rfl
          have htree : treeFrames v'.words below (v.words frame index &&& ADDRESS) =
              treeFrames v.words below (v.words frame index &&& ADDRESS) :=
            treeFrames_congr below fun f hf i _ => by rw [hgives.words f (hapart f hf)]
          have hchild := @ih v' (v.words frame index &&& ADDRESS)
            (by rw [htree]; exact (List.nodup_append.mp hrest).1)
            (by
              rw [htree]
              intro f hf
              exact hgives.owned (howned f (by simp [hf])) (hapart f hf))
          rw [htree] at hchild
          rw [if_pos htable]
          refine Prog.wp_mono hchild ?_ ?_
          · intro _ v'' h
            exact hgives.append h
          · intro _ v'' h
            have := ((hgives.stuck h).append (after.flatMap fun index =>
              entryFrames v.words below (v.words frame index))).append [frame]
            simpa using this
        · rw [if_neg htable]
          have hentry : entryFrames v.words below (v.words frame index) = [] :=
            if_neg fun h => htable h.2
          rw [hentry, List.append_nil]
          exact hgives
      · rw [if_neg hlevel]
        have hnil : (tableIndices.flatMap fun index =>
            entryFrames v.words below (v.words frame index)) = [] := by
          rw [List.flatMap_eq_nil_iff]
          intro i _
          exact if_neg fun h => hlevel h.1
        refine hlast v ?_
        rw [hnil]
        exact Gives.nil

end GenericKernel.Paging
