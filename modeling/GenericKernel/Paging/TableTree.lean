import GenericKernel.Lib.Word
import GenericKernel.Paging.PageTables

/-!
# Table trees

Table contents are a function `Words` from frame and index to entry. Over it:

* `walk` — the entries a translation visits along an index path;
* `treeFrames` — the tables of a tree, children before parents;
* `sourceTables` — the tables a clone may look at;
* `Copies` — one tree is a private copy of another;
* `planTable` — what a clone does to the frames it is given: the tree it
  builds, or the order in which it gives everything back.
-/

namespace GenericKernel.Paging

open GenericKernel.Lib

/-- Table contents. -/
abbrev Words := UInt64 → Nat → UInt64

theorem tableIndices_eq : tableIndices = List.range 512 := by
  delta tableIndices
  rfl

variable {i below : Nat} {entry frame : UInt64} {words words' : Words}

theorem mem_tableIndices : i ∈ tableIndices ↔ i < 512 := by
  rw [tableIndices_eq]
  exact List.mem_range

theorem nodup_tableIndices : tableIndices.Nodup := by
  rw [tableIndices_eq]
  exact List.nodup_range

/-! ## Entries -/

/-- What the clone does with an entry of a table at `level`. -/
inductive EntryKind
  | keep
  | bad
  | table (frame : UInt64)
  deriving DecidableEq

def entryKind (level : Nat) (entry : UInt64) : EntryKind :=
  if entry &&& PRESENT ≠ 0 ∧ 1 < level then
    if entry &&& HUGE ≠ 0 then
      if level = 4 ∨ entry &&& reservedBits level ≠ 0 then .bad else .keep
    else .table (entry &&& ADDRESS)
  else .keep

theorem cloneEntry_eq (level : Nat) (child : UInt64 → CloneState →
    TableProg (Except CloneError UInt64 × CloneState)) (entry : UInt64) (st : CloneState) :
    cloneEntry level child entry st =
      (match entryKind level entry with
      | .keep => pure (.ok entry, st)
      | .bad => pure (.error .invalidHugePage, st)
      | .table frame => do
          let (result, st) ← child frame st
          match result with
          | .error e => pure (.error e, st)
          | .ok child => pure (.ok ((entry &&& ~~~ADDRESS) ||| child), st)) := by
  unfold cloneEntry entryKind
  by_cases hpresent : entry &&& PRESENT ≠ 0 ∧ 1 < level
  · rw [if_pos hpresent, if_pos hpresent]
    by_cases hhuge : entry &&& HUGE ≠ 0
    · rw [if_pos hhuge, if_pos hhuge]
      by_cases hlevel : level = 4
      · rw [if_pos hlevel, if_pos (.inl hlevel)]
      · rw [if_neg hlevel]
        by_cases hres : entry &&& reservedBits level ≠ 0
        · rw [if_pos hres, if_pos (.inr hres)]
        · rw [if_neg hres, if_neg (fun h => h.elim hlevel hres)]
    · rewrite [if_neg hhuge, if_neg hhuge]
      rfl
  · rw [if_neg hpresent, if_neg hpresent]

theorem entryKind_table {level : Nat} (h : entryKind level entry = .table frame) :
    1 < level ∧ IsTable entry ∧ frame = entry &&& ADDRESS := by
  unfold entryKind at h
  by_cases hpresent : entry &&& PRESENT ≠ 0 ∧ 1 < level
  · rw [if_pos hpresent] at h
    by_cases hhuge : entry &&& HUGE ≠ 0
    · rw [if_pos hhuge] at h
      split at h <;> cases h
    · rw [if_neg hhuge] at h
      cases h
      exact ⟨hpresent.2, ⟨hpresent.1, not_not.mp hhuge⟩, rfl⟩
  · rw [if_neg hpresent] at h
    cases h

theorem not_isTable_of_keep {level : Nat} (h : entryKind level entry = .keep) :
    ¬ (1 < level ∧ IsTable entry) := by
  intro ⟨hlevel, htable⟩
  unfold entryKind at h
  rw [if_pos ⟨htable.1, hlevel⟩, if_neg (not_not.mpr htable.2)] at h
  cases h

/-- Whether an entry is a table link depends on its flags only. -/
theorem isTable_congr {x y : UInt64} (h : x &&& ~~~ADDRESS = y &&& ~~~ADDRESS) :
    IsTable x ↔ IsTable y := by
  have hflag : ∀ z flag : UInt64, ~~~ADDRESS &&& flag = flag →
      z &&& flag = (z &&& ~~~ADDRESS) &&& flag := by
    intro z flag hf
    rw [UInt64.and_assoc, hf]
  unfold IsTable
  rw [hflag x PRESENT (by decide), hflag y PRESENT (by decide), hflag x HUGE (by decide),
    hflag y HUGE (by decide), h]

theorem ValidFrame.and_not_address (h : ValidFrame frame) : frame &&& ~~~ADDRESS = 0 := by
  by_contra hne
  exact h (.inr hne)

theorem not_isTable_zero : ¬ IsTable 0 := by decide

/-! ## Trees -/

/-- The entries a translation visits: it descends while an entry above level 1
links a table. -/
def walk (words : Words) : Nat → UInt64 → List Nat → List UInt64
  | 0, _, _ => []
  | _ + 1, _, [] => []
  | below + 1, frame, index :: path =>
      let entry := words frame index
      if 1 < below + 1 ∧ IsTable entry then
        entry :: walk words below (entry &&& ADDRESS) path
      else [entry]

/-- The tables of the tree at `frame`, in the order `release_tree` frees them:
the children by index, then the table itself. -/
def treeFrames (words : Words) : Nat → UInt64 → List UInt64
  | 0, frame => [frame]
  | below + 1, frame =>
      (tableIndices.flatMap fun index =>
        if 1 < below + 1 ∧ IsTable (words frame index) then
          treeFrames words below (words frame index &&& ADDRESS)
        else []) ++ [frame]

/-- The tables below one entry of a table at level `below + 1`. -/
def entryFrames (words : Words) (below : Nat) (entry : UInt64) : List UInt64 :=
  if 1 < below + 1 ∧ IsTable entry then treeFrames words below (entry &&& ADDRESS) else []

theorem treeFrames_succ (words : Words) (below : Nat) (frame : UInt64) :
    treeFrames words (below + 1) frame =
      tableIndices.flatMap (fun index => entryFrames words below (words frame index)) ++
        [frame] := rfl

theorem entryFrames_zero (words : Words) (below : Nat) : entryFrames words below 0 = [] :=
  if_neg fun h => not_isTable_zero h.2

theorem mem_treeFrames_self (words : Words) (level : Nat) (frame : UInt64) :
    frame ∈ treeFrames words level frame := by
  cases level with
  | zero => exact List.mem_cons_self
  | succ below => exact List.mem_append_right _ List.mem_cons_self

theorem mem_treeFrames_of_entry {f : UInt64} (hi : i < 512)
    (hf : f ∈ entryFrames words below (words frame i)) : f ∈ treeFrames words (below + 1) frame :=
  List.mem_append_left _ (List.mem_flatMap.mpr ⟨i, mem_tableIndices.mpr hi, hf⟩)

/-- The tree depends only on the contents of its own tables. -/
theorem treeFrames_congr (level : Nat) : ∀ {frame : UInt64},
    (∀ f ∈ treeFrames words level frame, ∀ i < 512, words' f i = words f i) →
    treeFrames words' level frame = treeFrames words level frame := by
  induction level with
  | zero =>
      intro frame _
      rfl
  | succ below ih =>
      intro frame h
      rw [treeFrames_succ, treeFrames_succ]
      congr 1
      refine List.flatMap_congr fun i hi => ?_
      have hi' := mem_tableIndices.mp hi
      have hentry : words' frame i = words frame i := h frame (mem_treeFrames_self _ _ _) i hi'
      rw [hentry]
      unfold entryFrames
      by_cases htable : 1 < below + 1 ∧ IsTable (words frame i)
      · rw [if_pos htable, if_pos htable]
        refine ih fun f hf => h f (mem_treeFrames_of_entry hi' ?_)
        rw [entryFrames, if_pos htable]
        exact hf
      · rw [if_neg htable, if_neg htable]

theorem entryFrames_congr
    (h : ∀ f ∈ entryFrames words below entry, ∀ i < 512, words' f i = words f i) :
    entryFrames words' below entry = entryFrames words below entry := by
  unfold entryFrames at h ⊢
  by_cases htable : 1 < below + 1 ∧ IsTable entry
  · rw [if_pos htable] at h
    rw [if_pos htable, if_pos htable]
    exact treeFrames_congr below h
  · rw [if_neg htable, if_neg htable]

/-- The tables a clone of `frame` may read: valid frames, linked from the
root within the levels. -/
def sourceTables (words : Words) : Nat → UInt64 → Set UInt64
  | 0, _ => ∅
  | below + 1, frame => {f | ValidFrame frame ∧ (f = frame ∨
      1 < below + 1 ∧ ∃ i < 512, IsTable (words frame i) ∧
        f ∈ sourceTables words below (words frame i &&& ADDRESS))}

/-- The tree at `frame` in `words'` copies the one at `source` in `words`:
links keep their flags and lead to copies, everything else is identical. -/
def Copies (words words' : Words) : Nat → UInt64 → UInt64 → Prop
  | 0, _, _ => True
  | below + 1, source, frame => ∀ i < 512,
      if 1 < below + 1 ∧ IsTable (words source i) then
        words' frame i &&& ~~~ADDRESS = words source i &&& ~~~ADDRESS ∧
          Copies words words' below (words source i &&& ADDRESS) (words' frame i &&& ADDRESS)
      else words' frame i = words source i

/-- One entry of a copy. -/
def CopiesEntry (words words' : Words) (below : Nat) (source frame : UInt64) (i : Nat) : Prop :=
  if 1 < below + 1 ∧ IsTable (words source i) then
    words' frame i &&& ~~~ADDRESS = words source i &&& ~~~ADDRESS ∧
      Copies words words' below (words source i &&& ADDRESS) (words' frame i &&& ADDRESS)
  else words' frame i = words source i

theorem copies_succ {source : UInt64} :
    Copies words words' (below + 1) source frame ↔
      ∀ i < 512, CopiesEntry words words' below source frame i := Iff.rfl

/-- A copy stays one when tables outside it change. -/
theorem Copies.congr {words'' : Words} (level : Nat) :
    ∀ {source frame : UInt64}, Copies words words' level source frame →
    (∀ f ∈ treeFrames words' level frame, ∀ i < 512, words'' f i = words' f i) →
    Copies words words'' level source frame := by
  induction level with
  | zero =>
      intro source frame _ _
      trivial
  | succ below ih =>
      intro source frame h hsame i hi
      have hentry : words'' frame i = words' frame i :=
        hsame frame (mem_treeFrames_self _ _ _) i hi
      have hi' := h i hi
      rw [hentry]
      by_cases htable : 1 < below + 1 ∧ IsTable (words source i)
      · rw [if_pos htable] at hi' ⊢
        refine ⟨hi'.1, ih hi'.2 fun f hf => hsame f (mem_treeFrames_of_entry hi ?_)⟩
        rw [entryFrames, if_pos ⟨htable.1, (isTable_congr hi'.1).mpr htable.2⟩]
        exact hf
      · rw [if_neg htable] at hi' ⊢
        exact hi'

theorem CopiesEntry.congr {words'' : Words} {source : UInt64}
    (h : CopiesEntry words words' below source frame i) (hentry : words'' frame i = words' frame i)
    (hsame : ∀ f ∈ entryFrames words' below (words' frame i), ∀ j < 512, words'' f j = words' f j) :
    CopiesEntry words words'' below source frame i := by
  unfold CopiesEntry at h ⊢
  rw [hentry]
  by_cases htable : 1 < below + 1 ∧ IsTable (words source i)
  · rw [if_pos htable] at h ⊢
    refine ⟨h.1, h.2.congr below fun f hf => hsame f ?_⟩
    rw [entryFrames, if_pos ⟨htable.1, (isTable_congr h.1).mpr htable.2⟩]
    exact hf
  · rw [if_neg htable] at h ⊢
    exact h

/-- Two walks of the same length, with equal flags on every step but the last
and the same last entry. -/
def SameWalk : List UInt64 → List UInt64 → Prop
  | [], [] => True
  | [entry], [entry'] => entry' = entry
  | entry :: rest, entry' :: rest' =>
      entry' &&& ~~~ADDRESS = entry &&& ~~~ADDRESS ∧ SameWalk rest rest'
  | _, _ => False

theorem walk_ne_nil {path : List Nat} (h : path ≠ []) : walk words (below + 1) frame path ≠ [] := by
  cases path with
  | nil => exact absurd rfl h
  | cons index path =>
      unfold walk
      dsimp only
      split
      · exact List.cons_ne_nil _ _
      · exact List.cons_ne_nil _ _

theorem SameWalk.cons {entry entry' : UInt64} {rest rest' : List UInt64}
    (hflags : entry' &&& ~~~ADDRESS = entry &&& ~~~ADDRESS) (hne : rest ≠ [])
    (h : SameWalk rest rest') : SameWalk (entry :: rest) (entry' :: rest') := by
  cases rest with
  | nil => exact absurd rfl hne
  | cons e rest => exact ⟨hflags, h⟩

/-- Walking a copy is walking the original, along every path that is long
enough. -/
theorem Copies.sameWalk (level : Nat) :
    ∀ {source frame : UInt64} {path : List Nat}, Copies words words' level source frame →
    path.length = level → (∀ i ∈ path, i < 512) →
    SameWalk (walk words level source path) (walk words' level frame path) := by
  induction level with
  | zero =>
      intro source frame path _ _ _
      trivial
  | succ below ih =>
      intro source frame path h hlen hpath
      cases path with
      | nil => cases hlen
      | cons i path =>
          have hi := h i (hpath i List.mem_cons_self)
          simp only [walk]
          by_cases htable : 1 < below + 1 ∧ IsTable (words source i)
          · rw [if_pos htable] at hi
            rw [if_pos htable, if_pos ⟨htable.1, (isTable_congr hi.1).mpr htable.2⟩]
            have hlen' : path.length = below := Nat.succ.inj hlen
            have hrest := ih hi.2 hlen' fun j hj => hpath j (List.mem_cons_of_mem _ hj)
            refine SameWalk.cons hi.1 ?_ hrest
            cases below with
            | zero => exact absurd htable.1 (by decide)
            | succ k =>
                refine walk_ne_nil ?_
                intro hnil
                rw [hnil] at hlen'
                cases hlen'
          · rw [if_neg htable] at hi
            rw [if_neg htable, if_neg (by rw [hi]; exact htable)]
            exact hi

/-! ## What a clone does to the frames it is given -/

/-- The result of a clone on paper: a built tree, or the frames given back
after an error, both children first. -/
inductive Plan
  | built (root : UInt64) (frames : List UInt64)
  | undone (error : CloneError) (frames : List UInt64)
  deriving DecidableEq

/-- The copy loop on paper. `closed` are the frames of the children done so
far; a failed child has given back its own frames before its parent does. -/
def planEntries (words : Words) (level : Nat) (child : UInt64 → Nat → Plan × Nat)
    (source destination : UInt64) : List Nat → List UInt64 → Nat → Plan × Nat
  | [], closed, count => (.built destination (closed ++ [destination]), count)
  | index :: rest, closed, count =>
      match entryKind level (words source index) with
      | .keep => planEntries words level child source destination rest closed count
      | .bad => (.undone .invalidHugePage (closed ++ [destination]), count)
      | .table frame =>
          match child frame count with
          | (.undone e order, count) => (.undone e (order ++ (closed ++ [destination])), count)
          | (.built _ frames, count) =>
              planEntries words level child source destination rest (closed ++ frames) count

/-- A clone on paper: `frames n` is the frame the allocation number `n` gets,
`path` the tables above `source`, `count` the allocations so far. -/
def planTable (words : Words) (frames : Nat → Option UInt64) (limit : Nat) :
    Nat → UInt64 → List UInt64 → Nat → Plan × Nat
  | 0 => fun _ _ count => (.undone .invalidFrame [], count)
  | below + 1 => fun source path count =>
      if ¬ ValidFrame source then (.undone .invalidFrame [], count)
      else if source ∈ path then (.undone .cycle [], count)
      else if count = limit then (.undone .tableLimit [], count)
      else
        match frames count with
        | none => (.undone .outOfMemory [], count)
        | some destination =>
            if ¬ ValidFrame destination then (.undone .invalidFrame [destination], count + 1)
            else
              planEntries words (below + 1)
                (fun frame count =>
                  planTable words frames limit below frame (path ++ [source]) count)
                source destination tableIndices [] (count + 1)

end GenericKernel.Paging
