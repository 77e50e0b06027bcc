import GenericKernel.Vfs.PathMap
import GenericKernel.Vfs.RamFs

/-!
# The memory filesystem keeps a tree

* `RamFs.shape` — the nodes with their children, as the two maps hold them.
* `RamFs.Sound` — the shape is a tree of directories and files below inode 1, and the next inode
  number is fresh; `new_sound`, and one lemma for each modifying operation that says what it
  returns and what it does to the shape: `createNode_spec`, `remove_spec`, `write_spec`,
  `truncate_spec`.
* `RamFs.lawful` — so the backend keeps the contract of the VFS.
-/

namespace GenericKernel.VfsCore

open GenericKernel.Lib

def RamNode.content (node : RamNode) : Node :=
  match node.kind with
  | .directory => .directory
  | .file => .file node.data

/-- A node by itself: only directories have children, and under valid names. -/
structure RamNode.Sound (node : RamNode) : Prop where
  childless : node.kind = .file → ∀ n : String, node.children[n]? = none
  named : ∀ n : String, node.children[n]? ≠ none → ValidName n

variable {node directory : RamNode} {kind : NodeKind} {m : Metadata}

namespace RamFs

variable {fs : RamFs} {parent inode : Nat} {name : String}

/-- The nodes and their children. -/
def shape (fs : RamFs) : NodeGraph Nat String Entry where
  child parent name := fs.nodes[parent]?.bind fun node => node.children[name]?
  info inode := fs.nodes[inode]?.map fun node => ⟨inode, node.content⟩

structure Sound (fs : RamFs) : Prop where
  tree : (shape fs).Tree 1
  root : ∃ node : RamNode, fs.nodes[1]? = some node ∧ node.kind = .directory
  node : ∀ (i : Nat) (node : RamNode), fs.nodes[i]? = some node → i < fs.nextInode ∧ node.Sound
  next_lt : fs.nextInode < wordSize

theorem Sound.fresh (h : Sound fs) : fs.nodes[fs.nextInode]? = none := by
  cases hnode : fs.nodes[fs.nextInode]? with
  | none => rfl
  | some node => exact absurd (h.node _ node hnode).1 (Nat.lt_irrefl _)

/-! ## The two maps -/

theorem getElem?_setNode (fs : RamFs) (i j : Nat) (node : RamNode) :
    (fs.setNode i node).nodes[j]? = if i = j then some node else fs.nodes[j]? := by
  unfold setNode
  rw [Std.TreeMap.getElem?_insert]
  simp only [Nat.compare_eq_eq]

theorem getElem?_insertName (children : Std.TreeMap String Nat compareNames) (n m : String) (i : Nat) :
    (children.insert n i)[m]? = if n = m then some i else children[m]? := by
  rw [Std.TreeMap.getElem?_insert]
  simp only [Std.LawfulEqCmp.compare_eq_iff_eq]

theorem getElem?_eraseName (children : Std.TreeMap String Nat compareNames) (n m : String) :
    (children.erase n)[m]? = if n = m then none else children[m]? := by
  rw [Std.TreeMap.getElem?_erase]
  simp only [Std.LawfulEqCmp.compare_eq_iff_eq]

theorem child_of_node (h : fs.nodes[inode]? = some node) (n : String) :
    (shape fs).child inode n = node.children[n]? := by
  show fs.nodes[inode]?.bind _ = _
  rw [h]
  rfl

theorem info_of_node (h : fs.nodes[inode]? = some node) :
    (shape fs).info inode = some ⟨inode, node.content⟩ := by
  show fs.nodes[inode]?.map _ = _
  rw [h]
  rfl

/-- The map of nodes decides which nodes are live. -/
theorem info_eq_none : (shape fs).info inode = none ↔ fs.nodes[inode]? = none :=
  Option.map_eq_none_iff

/-- A new node `i`, entered in its directory. -/
theorem shape_link {directory node : RamNode} {i : Nat} (hparent : fs.nodes[parent]? = some directory)
    (hfresh : fs.nodes[i]? = none) (hempty : ∀ n : String, node.children[n]? = none) :
    shape ((fs.setNode i node).setNode parent
      { directory with children := directory.children.insert name i }) =
    (shape fs).link parent name i ⟨i, node.content⟩ := by
  have hne : parent ≠ i := by
    rintro rfl
    rw [hfresh] at hparent
    cases hparent
  refine NodeGraph.ext ?_ ?_
  · funext p n
    rw [NodeGraph.child_link]
    show ((RamFs.setNode _ _ _).nodes[p]?.bind _) = _
    rw [getElem?_setNode, getElem?_setNode]
    by_cases hp : parent = p
    · subst hp
      rw [if_pos rfl, child_of_node hparent]
      simp only [Option.bind_some, getElem?_insertName, true_and, eq_comm]
    · rw [if_neg hp, if_neg fun h : p = parent ∧ n = name => hp h.1.symm]
      by_cases hi : i = p
      · subst hi
        rw [if_pos rfl, Option.bind_some, hempty]
        show none = fs.nodes[i]?.bind _
        rw [hfresh]
        rfl
      · rw [if_neg hi]
        rfl
  · funext j
    show ((RamFs.setNode _ _ _).nodes[j]?.map _) = Function.update (shape fs).info i _ j
    rw [getElem?_setNode, getElem?_setNode]
    by_cases hp : parent = j
    · subst hp
      rw [if_pos rfl, Function.update_of_ne hne, info_of_node hparent]
      rfl
    · rw [if_neg hp]
      by_cases hi : i = j
      · subst hi
        rw [if_pos rfl, Function.update_self]
        rfl
      · rw [if_neg hi, Function.update_of_ne (Ne.symm hi)]
        rfl

/-- A node taken out, and out of its directory. -/
theorem shape_unlink {i : Nat} (hparent : fs.nodes[parent]? = some directory) (hne : parent ≠ i)
    (hleaf : ∀ n, (shape fs).child i n = none) :
    shape { fs.setNode parent { directory with children := directory.children.erase name } with
      nodes := (fs.setNode parent
        { directory with children := directory.children.erase name }).nodes.erase i } =
    (shape fs).unlink parent name i := by
  have hget : ∀ j, ((fs.setNode parent
      { directory with children := directory.children.erase name }).nodes.erase i)[j]? =
      if i = j then none else if parent = j then
        some { directory with children := directory.children.erase name } else fs.nodes[j]? := by
    intro j
    rw [Std.TreeMap.getElem?_erase, getElem?_setNode]
    simp only [Nat.compare_eq_eq]
  refine NodeGraph.ext ?_ ?_
  · funext p n
    rw [NodeGraph.child_unlink]
    show ((Std.TreeMap.erase _ _)[p]?.bind _) = _
    rw [hget]
    by_cases hi : i = p
    · subst hi
      rw [if_pos rfl, if_neg fun h => hne h.1.symm, hleaf]
      rfl
    · rw [if_neg hi]
      by_cases hp : parent = p
      · subst hp
        rw [if_pos rfl, child_of_node hparent]
        simp only [Option.bind_some, getElem?_eraseName, true_and, eq_comm]
      · rw [if_neg hp, if_neg fun h => hp h.1.symm]
        rfl
  · funext j
    show ((Std.TreeMap.erase _ _)[j]?.map _) = Function.update (shape fs).info i none j
    rw [hget]
    by_cases hi : i = j
    · subst hi
      rw [if_pos rfl, Function.update_self]
      rfl
    · rw [if_neg hi, Function.update_of_ne (Ne.symm hi)]
      by_cases hp : parent = j
      · subst hp
        rw [if_pos rfl, info_of_node hparent]
        rfl
      · rw [if_neg hp]
        rfl

/-- New bytes in a file. -/
theorem shape_setData (hnode : fs.nodes[inode]? = some node) (hkind : node.kind = .file)
    (bytes : List UInt8) :
    shape (fs.setNode inode { node with data := bytes }) =
      (shape fs).setInfo inode ⟨inode, .file bytes⟩ := by
  refine NodeGraph.ext ?_ ?_
  · funext p n
    show ((RamFs.setNode _ _ _).nodes[p]?.bind _) = (shape fs).child p n
    rw [getElem?_setNode]
    by_cases hp : inode = p
    · subst hp
      rw [if_pos rfl, child_of_node hnode]
      rfl
    · rw [if_neg hp]
      rfl
  · funext j
    show ((RamFs.setNode _ _ _).nodes[j]?.map _) = Function.update (shape fs).info inode _ j
    rw [getElem?_setNode]
    by_cases hj : inode = j
    · subst hj
      rw [if_pos rfl, Function.update_self]
      show some _ = _
      unfold RamNode.content
      rw [hkind]
    · rw [if_neg hj, Function.update_of_ne (Ne.symm hj)]
      rfl

/-! ## Creating -/

/-- The node that `create_node` inserts. -/
def freshNode : NodeKind → RamNode
  | .file => RamNode.file
  | .directory => RamNode.directory

theorem freshNode_children (kind : NodeKind) (n : String) : (freshNode kind).children[n]? = none := by
  cases kind <;> exact Std.TreeMap.getElem?_emptyc

theorem getElem?_new (j : Nat) :
    new.nodes[j]? = if 1 = j then some RamNode.directory else none := by
  unfold new
  rw [Std.TreeMap.getElem?_insert, Std.TreeMap.getElem?_emptyc]
  simp only [Nat.compare_eq_eq]

theorem new_sound : Sound new := by
  have hnode : ∀ {j node}, new.nodes[j]? = some node → j = 1 ∧ node = RamNode.directory := by
    intro j node hj
    rw [getElem?_new] at hj
    by_cases hone : 1 = j
    · rw [if_pos hone] at hj
      exact ⟨hone.symm, (Option.some.inj hj).symm⟩
    · rw [if_neg hone] at hj
      cases hj
  have hchild : ∀ p n, (shape new).child p n = none := by
    intro p n
    cases hp : new.nodes[p]? with
    | none =>
      show new.nodes[p]?.bind _ = none
      rw [hp]
      rfl
    | some node =>
      rw [child_of_node hp, (hnode hp).2]
      exact freshNode_children .directory n
  refine ⟨⟨?_, fun h => ?_, fun h => ?_, fun p n h => ?_⟩, ⟨_, getElem?_new 1, rfl⟩, fun i node h => ?_, ?_⟩
  · rw [info_of_node (getElem?_new 1)]
    rfl
  · rw [hchild] at h
    cases h
  · rw [hchild] at h
    cases h
  · rw [hchild] at h
    cases h
  · obtain ⟨rfl, rfl⟩ := hnode h
    exact ⟨Nat.one_lt_two, fun _ n => freshNode_children .directory n,
      fun n hn => absurd (freshNode_children .directory n) hn⟩
  · rw [wordSize]
    decide

/-- The state after a node has been made. -/
def linked (fs : RamFs) (parent : Nat) (name : String) (kind : NodeKind) (directory : RamNode) :
    RamFs :=
  ({ fs with nextInode := fs.nextInode + 1 }.setNode fs.nextInode (freshNode kind)).setNode parent
    { directory with children := directory.children.insert name fs.nextInode }

theorem shape_linked (h : Sound fs) (hparent : fs.nodes[parent]? = some directory) :
    shape (fs.linked parent name kind directory) =
      (shape fs).link parent name fs.nextInode ⟨fs.nextInode, (freshNode kind).content⟩ :=
  @shape_link { fs with nextInode := fs.nextInode + 1 } parent name directory (freshNode kind)
    fs.nextInode hparent h.fresh (freshNode_children kind)

theorem linked_sound (h : Sound fs) (hparent : fs.nodes[parent]? = some directory)
    (hdir : directory.kind = .directory) (hvalid : ValidName name)
    (hroom : fs.nextInode + 1 < wordSize) : Sound (fs.linked parent name kind directory) := by
  have hlive : ((shape fs).info parent).isSome := by
    rw [info_of_node hparent]
    rfl
  have hget : ∀ j, (fs.linked parent name kind directory).nodes[j]? =
      if parent = j then some { directory with children := directory.children.insert name fs.nextInode }
      else if fs.nextInode = j then some (freshNode kind) else fs.nodes[j]? := by
    intro j
    unfold linked
    rw [getElem?_setNode, getElem?_setNode]
  refine ⟨?_, ?_, fun i node hi => ?_, hroom⟩
  · rw [shape_linked h hparent]
    exact NodeGraph.tree_link h.tree (info_eq_none.mpr h.fresh) hlive
  · obtain ⟨root, hroot, hkind⟩ := h.root
    rw [hget]
    by_cases hone : parent = 1
    · subst hone
      exact ⟨_, if_pos rfl, hdir⟩
    · have hnext : fs.nextInode ≠ 1 := (h.node 1 root hroot).1.ne'
      rw [if_neg hone, if_neg hnext]
      exact ⟨root, hroot, hkind⟩
  · rw [hget] at hi
    by_cases hp : parent = i
    · subst hp
      rw [if_pos rfl] at hi
      obtain rfl := Option.some.inj hi
      obtain ⟨hlt, hsound⟩ := h.node _ _ hparent
      refine ⟨Nat.lt_succ_of_lt hlt, fun hfile => ?_, fun n hn => ?_⟩
      · rw [hdir] at hfile
        cases hfile
      · rw [getElem?_insertName] at hn
        by_cases hname : name = n
        · exact hname ▸ hvalid
        · rw [if_neg hname] at hn
          exact hsound.named n hn
    · rw [if_neg hp] at hi
      by_cases hnext : fs.nextInode = i
      · subst hnext
        rw [if_pos rfl] at hi
        obtain rfl := Option.some.inj hi
        exact ⟨Nat.lt_succ_self _, fun _ => freshNode_children kind,
          fun n hn => absurd (freshNode_children kind n) hn⟩
      · rw [if_neg hnext] at hi
        obtain ⟨hlt, hsound⟩ := h.node _ _ hi
        exact ⟨Nat.lt_succ_of_lt hlt, hsound⟩

/-- The outcomes of `create_node`. -/
inductive Creation (fs : RamFs) (parent : Nat) (name : String) (kind : NodeKind) :
    Except VfsError Nat × RamFs → Prop
  | refused {e : VfsError} : ¬ (ValidName name ∧ (shape fs).info parent = some ⟨parent, .directory⟩) →
      Creation fs parent name kind (.error e, fs)
  | taken {i : Nat} : (shape fs).child parent name = some i →
      Creation fs parent name kind (.error .alreadyExists, fs)
  | exhausted : (shape fs).child parent name = none → wordSize ≤ fs.nextInode + 1 →
      Creation fs parent name kind (.error .inodeExhausted, fs)
  | done {fs' : RamFs} : (shape fs).child parent name = none → fs.nextInode + 1 < wordSize →
      Sound fs' → fs'.nextInode = fs.nextInode + 1 →
      shape fs' = (shape fs).link parent name fs.nextInode ⟨fs.nextInode, (freshNode kind).content⟩ →
      Creation fs parent name kind (.ok fs.nextInode, fs')

theorem info_of_file (hnode : fs.nodes[inode]? = some node) (hkind : node.kind = .file) :
    (shape fs).info inode = some ⟨inode, .file node.data⟩ := by
  rw [info_of_node hnode, RamNode.content, hkind]

theorem directoryNode_of_node (hnode : fs.nodes[inode]? = some node) :
    fs.directoryNode inode =
      if node.kind = .directory then .ok node else .error .notDirectory := by
  unfold directoryNode RamFs.node
  rw [hnode]
  show (if node.kind ≠ .directory then _ else _) = _
  cases node.kind <;> rfl

theorem directoryNode_of_none (hnode : fs.nodes[inode]? = none) :
    fs.directoryNode inode = .error .notFound := by
  unfold directoryNode RamFs.node
  rw [hnode]
  rfl

theorem createNode_spec (h : Sound fs) (parent : Nat) (name : String) (kind : NodeKind) :
    Creation fs parent name kind (fs.createNode parent name kind) := by
  unfold createNode
  cases hvalid : validateName name with
  | error e => exact .refused fun hdir => nomatch hvalid.symm.trans hdir.1
  | ok _ =>
    cases hparent : fs.nodes[parent]? with
    | none =>
      rw [directoryNode_of_none hparent]
      exact .refused fun hdir => nomatch (info_eq_none.mpr hparent).symm.trans hdir.2
    | some directory =>
      rw [directoryNode_of_node hparent]
      cases hkind : directory.kind with
      | file => exact .refused fun hdir => nomatch (info_of_file hparent hkind).symm.trans hdir.2
      | directory =>
        rw [if_pos rfl]
        dsimp only
        by_cases htaken : name ∈ directory.children
        · rw [if_pos htaken]
          obtain ⟨i, hi⟩ := Option.isSome_iff_exists.mp (Std.TreeMap.mem_iff_isSome_getElem?.mp htaken)
          exact .taken ((child_of_node hparent name).trans hi)
        · have hfree : (shape fs).child parent name = none := by
            rw [child_of_node hparent]
            rwa [Std.TreeMap.mem_iff_isSome_getElem?, Option.not_isSome_iff_eq_none] at htaken
          rw [if_neg htaken]
          by_cases hroom : fs.nextInode + 1 < wordSize
          · have hsum : checkedAdd fs.nextInode 1 = some (fs.nextInode + 1) :=
              checkedAdd_eq_some.mpr ⟨rfl, hroom⟩
            -- the directory is found again behind the insertion
            have hagain : ({ fs with nextInode := fs.nextInode + 1 }.setNode fs.nextInode
                (freshNode kind)).node parent = .ok directory := by
              have hne : fs.nextInode ≠ parent := by
                rintro hnext
                rw [← hnext, h.fresh] at hparent
                cases hparent
              have hsame : ({ fs with nextInode := fs.nextInode + 1 } : RamFs).nodes[parent]? =
                  some directory := hparent
              unfold RamFs.node
              rw [getElem?_setNode, if_neg hne, hsame]
            have hdone : Creation fs parent name kind
                (.ok fs.nextInode, fs.linked parent name kind directory) :=
              .done hfree hroom (linked_sound h hparent hkind hvalid hroom) rfl
                (shape_linked h hparent)
            rw [hsum]
            dsimp only
            cases kind with
            | file =>
              rw [show RamNode.file = freshNode .file from rfl, hagain]
              exact hdone
            | directory =>
              rw [show RamNode.directory = freshNode .directory from rfl, hagain]
              exact hdone
          · have hsum : checkedAdd fs.nextInode 1 = none :=
              checkedAdd_eq_none.mpr (Nat.not_lt.mp hroom)
            rw [hsum]
            exact .exhausted hfree (Nat.not_lt.mp hroom)

/-! ## Removing -/

/-- The outcomes of `remove`. -/
inductive Removal (fs : RamFs) (parent : Nat) (name : String) :
    Except VfsError Unit × RamFs → Prop
  | refused {e : VfsError} : ¬ (ValidName name ∧ (shape fs).info parent = some ⟨parent, .directory⟩) →
      Removal fs parent name (.error e, fs)
  | missing : (shape fs).child parent name = none → Removal fs parent name (.error .notFound, fs)
  | notEmpty {i : Nat} {m : String} : (shape fs).child parent name = some i →
      (shape fs).child i m ≠ none → Removal fs parent name (.error .directoryNotEmpty, fs)
  | done {i : Nat} {fs' : RamFs} : (shape fs).child parent name = some i →
      (∀ m, (shape fs).child i m = none) → Sound fs' → fs'.nextInode = fs.nextInode →
      shape fs' = (shape fs).unlink parent name i → Removal fs parent name (.ok (), fs')

/-- The state after a node has been taken out. -/
def unlinked (fs : RamFs) (parent : Nat) (name : String) (i : Nat) (directory : RamNode) : RamFs :=
  { fs.setNode parent { directory with children := directory.children.erase name } with
    nodes := (fs.setNode parent
      { directory with children := directory.children.erase name }).nodes.erase i }

theorem unlinked_sound {i : Nat} (h : Sound fs) (hparent : fs.nodes[parent]? = some directory)
    (hchild : (shape fs).child parent name = some i) (hleaf : ∀ m, (shape fs).child i m = none)
    (hne : parent ≠ i) : Sound (fs.unlinked parent name i directory) := by
  have hget : ∀ j, (fs.unlinked parent name i directory).nodes[j]? =
      if i = j then none else if parent = j then
        some { directory with children := directory.children.erase name } else fs.nodes[j]? := by
    intro j
    unfold unlinked
    rw [Std.TreeMap.getElem?_erase, getElem?_setNode]
    simp only [Nat.compare_eq_eq]
  refine ⟨?_, ?_, fun j node hj => ?_, h.next_lt⟩
  · have hshape : shape (fs.unlinked parent name i directory) = (shape fs).unlink parent name i :=
      shape_unlink hparent hne hleaf
    rw [hshape]
    exact NodeGraph.tree_unlink h.tree hchild hleaf
  · obtain ⟨root, hroot, hkind⟩ := h.root
    have hnot : i ≠ 1 := fun hone => h.tree.root_top parent name (hone ▸ hchild)
    rw [hget, if_neg hnot]
    by_cases hone : parent = 1
    · subst hone
      rw [hparent] at hroot
      obtain rfl := Option.some.inj hroot
      exact ⟨_, if_pos rfl, hkind⟩
    · rw [if_neg hone]
      exact ⟨root, hroot, hkind⟩
  · rw [hget] at hj
    by_cases hi : i = j
    · rw [if_pos hi] at hj
      cases hj
    · rw [if_neg hi] at hj
      by_cases hp : parent = j
      · subst hp
        rw [if_pos rfl] at hj
        obtain rfl := Option.some.inj hj
        obtain ⟨hlt, hsound⟩ := h.node _ _ hparent
        refine ⟨hlt, fun hfile n => ?_, fun n hn => hsound.named n fun hnone => hn ?_⟩
        · rw [getElem?_eraseName]
          by_cases hname : name = n
          · exact if_pos hname
          · rw [if_neg hname]
            exact hsound.childless hfile n
        · rw [getElem?_eraseName, hnone]
          exact ite_self none
      · rw [if_neg hp] at hj
        exact h.node j node hj

theorem remove_spec (h : Sound fs) (parent : Nat) (name : String) :
    Removal fs parent name (fs.remove parent name) := by
  unfold remove
  cases hvalid : validateName name with
  | error e => exact .refused fun hdir => nomatch hvalid.symm.trans hdir.1
  | ok _ =>
    cases hparent : fs.nodes[parent]? with
    | none =>
      rw [directoryNode_of_none hparent]
      exact .refused fun hdir => nomatch (info_eq_none.mpr hparent).symm.trans hdir.2
    | some directory =>
      rw [directoryNode_of_node hparent]
      cases hkind : directory.kind with
      | file => exact .refused fun hdir => nomatch (info_of_file hparent hkind).symm.trans hdir.2
      | directory =>
        rw [if_pos rfl]
        dsimp only
        cases hchild : directory.children[name]? with
        | none => exact .missing ((child_of_node hparent name).trans hchild)
        | some i =>
          have hedge : (shape fs).child parent name = some i := (child_of_node hparent name).trans hchild
          obtain ⟨node, hnode⟩ : ∃ node, fs.nodes[i]? = some node := by
            refine Option.ne_none_iff_exists'.mp fun hnone => ?_
            have hlive := (h.tree.edge hedge).2
            rw [info_eq_none.mpr hnone] at hlive
            cases hlive
          have hfound : fs.node i = .ok node := by
            unfold RamFs.node
            rw [hnode]
          dsimp only
          rw [hfound]
          dsimp only
          by_cases hfull : node.kind = .directory ∧ ¬ node.children.isEmpty
          · rw [if_pos hfull]
            obtain ⟨m, hm⟩ : ∃ m, m ∈ node.children := by
              by_contra hnone
              exact hfull.2 (Std.TreeMap.isEmpty_iff_forall_not_mem.mpr (not_exists.mp hnone))
            refine .notEmpty hedge (?_ : (shape fs).child i m ≠ none)
            rw [child_of_node hnode, ← Option.isSome_iff_ne_none]
            exact Std.TreeMap.mem_iff_isSome_getElem?.mp hm
          · rw [if_neg hfull]
            have hleaf : ∀ m, (shape fs).child i m = none := by
              intro m
              rw [child_of_node hnode]
              cases hnodeKind : node.kind with
              | file => exact (h.node i node hnode).2.childless hnodeKind m
              | directory =>
                have hempty : node.children.isEmpty := by
                  by_contra hnot
                  exact hfull ⟨hnodeKind, hnot⟩
                have hnot := Std.TreeMap.isEmpty_iff_forall_not_mem.mp hempty m
                rwa [Std.TreeMap.mem_iff_isSome_getElem?, Option.not_isSome_iff_eq_none] at hnot
            have hne : parent ≠ i := by
              rintro rfl
              rw [hleaf] at hedge
              cases hedge
            exact .done hedge hleaf (unlinked_sound h hparent hedge hleaf hne) rfl
              (shape_unlink hparent hne hleaf)

/-! ## Storing bytes -/

theorem setData_sound (h : Sound fs) (hnode : fs.nodes[inode]? = some node)
    (hkind : node.kind = .file) (bytes : List UInt8) :
    Sound (fs.setNode inode { node with data := bytes }) := by
  refine ⟨?_, ?_, fun j node' hj => ?_, h.next_lt⟩
  · rw [shape_setData hnode hkind]
    exact h.tree.setInfo _ _
  · obtain ⟨root, hroot, hdir⟩ := h.root
    have hne : inode ≠ 1 := by
      rintro rfl
      rw [hroot] at hnode
      rw [Option.some.inj hnode, hkind] at hdir
      cases hdir
    rw [getElem?_setNode, if_neg hne]
    exact ⟨root, hroot, hdir⟩
  · rw [getElem?_setNode] at hj
    by_cases hi : inode = j
    · subst hi
      rw [if_pos rfl] at hj
      obtain rfl := Option.some.inj hj
      obtain ⟨hlt, hsound⟩ := h.node _ _ hnode
      exact ⟨hlt, hsound.childless, hsound.named⟩
    · rw [if_neg hi] at hj
      exact h.node j node' hj

/-- The outcomes of `write` and `truncate`: `update` turns the bytes of the file into the new
ones, and `stop` is the end of the request. -/
inductive Storing {α : Type} (fs : RamFs) (inode stop : Nat) (update : List UInt8 → List UInt8)
    (value : α) : Except VfsError α × RamFs → Prop
  | noNode : (shape fs).info inode = none → Storing fs inode stop update value (.error .notFound, fs)
  | isDirectory : (shape fs).info inode = some ⟨inode, .directory⟩ →
      Storing fs inode stop update value (.error .isDirectory, fs)
  | overflow {bytes : List UInt8} : (shape fs).info inode = some ⟨inode, .file bytes⟩ →
      wordSize ≤ stop → Storing fs inode stop update value (.error .offsetOverflow, fs)
  | done {bytes : List UInt8} {fs' : RamFs} : (shape fs).info inode = some ⟨inode, .file bytes⟩ →
      stop < wordSize → Sound fs' → fs'.nextInode = fs.nextInode →
      shape fs' = (shape fs).setInfo inode ⟨inode, .file (update bytes)⟩ →
      Storing fs inode stop update value (.ok value, fs')

theorem fileNode_of_node (hnode : fs.nodes[inode]? = some node) :
    fs.fileNode inode = if node.kind = .directory then .error .isDirectory else .ok node := by
  unfold fileNode RamFs.node
  rw [hnode]
  rfl

theorem fileNode_of_none (hnode : fs.nodes[inode]? = none) :
    fs.fileNode inode = .error .notFound := by
  unfold fileNode RamFs.node
  rw [hnode]
  rfl

theorem info_of_directory (hnode : fs.nodes[inode]? = some node) (hkind : node.kind = .directory) :
    (shape fs).info inode = some ⟨inode, .directory⟩ := by
  rw [info_of_node hnode, RamNode.content, hkind]

/-- The bytes that `write` leaves are those of the abstract one. -/
theorem written_eq_overwrite (old data : List UInt8) (offset : Nat) :
    let grown := if old.length < offset + data.length then resize old (offset + data.length) else old
    grown.take offset ++ data ++ grown.drop (offset + data.length) = overwrite old offset data := by
  unfold overwrite
  dsimp only
  by_cases hgrow : old.length < offset + data.length
  · rw [if_pos hgrow, Nat.max_eq_right hgrow.le, List.drop_of_length_le (length_resize _ _).le,
      List.drop_of_length_le hgrow.le]
  · rw [if_neg hgrow, Nat.max_eq_left (Nat.not_lt.mp hgrow)]
    congr 3
    unfold resize
    rw [Nat.sub_self, List.take_length, List.replicate_zero, List.append_nil]

theorem write_spec (h : Sound fs) (inode offset : Nat) (data : List UInt8) :
    Storing fs inode (offset + data.length) (overwrite · offset data) data.length
      (fs.write inode offset data) := by
  unfold write
  cases hnode : fs.nodes[inode]? with
  | none =>
    rw [fileNode_of_none hnode]
    exact .noNode (info_eq_none.mpr hnode)
  | some node =>
    rw [fileNode_of_node hnode]
    cases hkind : node.kind with
    | directory => exact .isDirectory (info_of_directory hnode hkind)
    | file =>
      rw [if_neg (by decide)]
      dsimp only
      by_cases hstop : offset + data.length < wordSize
      · rw [checkedAdd_eq_some.mpr ⟨rfl, hstop⟩]
        dsimp only
        rw [written_eq_overwrite]
        exact .done (info_of_file hnode hkind) hstop (setData_sound h hnode hkind _) rfl
          (shape_setData hnode hkind _)
      · rw [checkedAdd_eq_none.mpr (Nat.not_lt.mp hstop)]
        exact .overflow (info_of_file hnode hkind) (Nat.not_lt.mp hstop)

theorem truncate_spec (h : Sound fs) (inode len : Nat) :
    Storing fs inode 0 (resize · len) () (fs.truncate inode len) := by
  unfold truncate
  cases hnode : fs.nodes[inode]? with
  | none =>
    rw [fileNode_of_none hnode]
    exact .noNode (info_eq_none.mpr hnode)
  | some node =>
    rw [fileNode_of_node hnode]
    cases hkind : node.kind with
    | directory => exact .isDirectory (info_of_directory hnode hkind)
    | file =>
      rw [if_neg (by decide)]
      exact .done (info_of_file hnode hkind) wordSize_pos (setData_sound h hnode hkind _) rfl
        (shape_setData hnode hkind _)

/-! ## Looking -/

theorem metadata_eq (fs : RamFs) (inode : Nat) : fs.metadata inode =
    match (shape fs).info inode with
    | some entry => .ok entry.metadata
    | none => .error .notFound := by
  unfold metadata RamFs.node
  cases hnode : fs.nodes[inode]? with
  | none =>
    rw [info_eq_none.mpr hnode]
    rfl
  | some node =>
    rw [info_of_node hnode]
    unfold RamNode.content Entry.metadata
    cases hkind : node.kind with
    | file =>
      show Except.ok _ = _
      rw [hkind]
    | directory =>
      show Except.ok _ = _
      rw [hkind]

theorem read_eq (fs : RamFs) (inode offset bufferLen : Nat) : fs.read inode offset bufferLen =
    match (shape fs).info inode with
    | some ⟨_, .file bytes⟩ => .ok ((bytes.drop offset).take bufferLen)
    | some ⟨_, .directory⟩ => .error .isDirectory
    | none => .error .notFound := by
  unfold read
  cases hnode : fs.nodes[inode]? with
  | none =>
    rw [fileNode_of_none hnode, info_eq_none.mpr hnode]
    rfl
  | some node =>
    rw [fileNode_of_node hnode]
    cases hkind : node.kind with
    | directory =>
      rw [info_of_directory hnode hkind]
      rfl
    | file =>
      rw [info_of_file hnode hkind]
      show (if node.data.length ≤ offset then Except.ok [] else
        .ok ((node.data.drop offset).take (min bufferLen (node.data.length - offset)))) =
        .ok ((node.data.drop offset).take bufferLen)
      by_cases hpast : node.data.length ≤ offset
      · rw [if_pos hpast, List.drop_of_length_le hpast, List.take_nil]
      · rw [if_neg hpast]
        -- `take` stops at the end by itself
        refine congrArg Except.ok ?_
        rw [← List.length_drop, ← List.take_eq_take_min]

theorem metadata_kind (inode : Nat) (node : RamNode) :
    (Entry.metadata ⟨inode, node.content⟩).kind = node.kind := by
  unfold RamNode.content Entry.metadata
  cases node.kind <;> rfl

theorem lookup_eq (h : Sound fs) (parent : Nat) {name : String} (hvalid : ValidName name) :
    fs.lookup parent name =
      match (shape fs).child parent name with
      | some i => .ok i
      | none => .error
        (if ((shape fs).info parent).any fun entry => entry.metadata.kind = .file then .notDirectory
          else .notFound) := by
  unfold lookup
  have hname : validateName name = .ok () := hvalid
  rw [hname]
  show (fs.directoryNode parent >>= fun directory => _) = _
  cases hparent : fs.nodes[parent]? with
  | none =>
    have hdead := h.tree.child_of_dead (info_eq_none.mpr hparent) name
    rw [directoryNode_of_none hparent, hdead, info_eq_none.mpr hparent]
    rfl
  | some directory =>
    rw [directoryNode_of_node hparent, child_of_node hparent, info_of_node hparent, Option.any_some,
      metadata_kind]
    cases hkind : directory.kind with
    | file =>
      rw [(h.node parent directory hparent).2.childless hkind name]
      rfl
    | directory =>
      show (match directory.children[name]? with | some inode => _ | none => _) = _
      cases directory.children[name]? <;> rfl

theorem lookup_toOption (h : Sound fs) (parent : Nat) (name : String) :
    (fs.lookup parent name).toOption = (shape fs).child parent name := by
  by_cases hvalid : ValidName name
  · rw [lookup_eq h parent hvalid]
    cases (shape fs).child parent name <;> rfl
  · -- no child has such a name
    have hnone : (shape fs).child parent name = none := by
      by_contra hsome
      cases hparent : fs.nodes[parent]? with
      | none => exact hsome (h.tree.child_of_dead (info_eq_none.mpr hparent) name)
      | some node =>
        rw [child_of_node hparent] at hsome
        exact hvalid ((h.node parent node hparent).2.named name hsome)
    rw [hnone]
    unfold lookup
    cases hname : validateName name with
    | error e => rfl
    | ok _ => exact absurd hname hvalid

theorem graph_eq (h : Sound fs) : graph fs = (shape fs).map Entry.metadata := by
  refine NodeGraph.ext ?_ ?_
  · funext p n
    exact lookup_toOption h p n
  · funext i
    show (fs.metadata i).toOption = ((shape fs).info i).map Entry.metadata
    rw [metadata_eq]
    cases (shape fs).info i <;> rfl

/-- The children of a directory, by name. -/
theorem readDir_listing (h : Sound fs) (hnode : fs.nodes[inode]? = some node)
    (hkind : node.kind = .directory) : ∃ entries, fs.readDir inode = .ok entries ∧
      IsListing (fun n => ((graph fs).child inode n).bind (graph fs).info) entries := by
  -- every child is live
  have hchild : ∀ (n : String) (i : Nat), node.children[n]? = some i →
      ∃ x, fs.metadata i = .ok x := by
    intro n i hi
    have hlive := (h.tree.edge ((child_of_node hnode n).trans hi)).2
    obtain ⟨x, hx⟩ := Option.isSome_iff_exists.mp hlive
    exact ⟨x.metadata, by rw [metadata_eq, hx]⟩
  have hlist : ∀ l : List (String × Nat), (∀ x ∈ l, node.children[x.1]? = some x.2) →
      ∃ entries, (l.mapM fun x => do return (⟨x.1, ← fs.metadata x.2⟩ : DirEntry)) = .ok entries ∧
        entries.map DirEntry.name = l.map Prod.fst ∧
        ∀ x, x ∈ entries ↔ ∃ i, (x.name, i) ∈ l ∧ fs.metadata i = .ok x.metadata := by
    intro l
    induction l with
    | nil => exact fun _ => ⟨[], rfl, rfl, fun x => by simp⟩
    | cons y l ih =>
      intro hl
      obtain ⟨entries, heval, hnames, hmem⟩ := ih fun x hx => hl x (List.mem_cons_of_mem _ hx)
      obtain ⟨z, hz⟩ := hchild y.1 y.2 (hl y List.mem_cons_self)
      refine ⟨⟨y.1, z⟩ :: entries, ?_, by simp [hnames], fun x => ?_⟩
      · rw [List.mapM_cons, heval, hz]
        rfl
      · rw [List.mem_cons, hmem]
        constructor
        · rintro (rfl | ⟨i, hi, hx⟩)
          · exact ⟨y.2, List.mem_cons_self, hz⟩
          · exact ⟨i, List.mem_cons_of_mem _ hi, hx⟩
        · rintro ⟨i, hi, hx⟩
          rcases List.mem_cons.mp hi with heq | hi
          · left
            rw [← heq] at hz
            obtain rfl := Except.ok.inj (hx.symm.trans hz)
            rw [← heq]
          · exact .inr ⟨i, hi, hx⟩
  obtain ⟨entries, heval, hnames, hmem⟩ := hlist node.children.toList fun x hx =>
    Std.TreeMap.mem_toList_iff_getElem?_eq_some.mp hx
  refine ⟨entries, ?_, ?_, fun x => ?_⟩
  · unfold readDir
    rw [directoryNode_of_node hnode, if_pos hkind]
    exact heval
  · have hsorted : (entries.map DirEntry.name).Pairwise fun left right =>
        compareNames left right = .lt := by
      rw [hnames, List.pairwise_map]
      exact Std.TreeMap.ordered_keys_toList
    exact List.pairwise_map.mp hsorted
  · rw [hmem, graph_eq h]
    show _ ↔ ((shape fs).child inode x.name).bind (fun i => ((shape fs).info i).map Entry.metadata) = _
    rw [child_of_node hnode, Option.bind_eq_some_iff]
    refine exists_congr fun i => ?_
    rw [Std.TreeMap.mem_toList_iff_getElem?_eq_some, metadata_eq]
    cases (shape fs).info i <;> simp

theorem metadata_ok (hm : fs.metadata inode = .ok m) :
    ∃ node, fs.nodes[inode]? = some node ∧ m = Entry.metadata ⟨inode, node.content⟩ ∧
      m.kind = node.kind ∧ m.inode = inode := by
  cases hnode : fs.nodes[inode]? with
  | none =>
    rw [metadata_eq, info_eq_none.mpr hnode] at hm
    cases hm
  | some node =>
    rw [metadata_eq, info_of_node hnode] at hm
    obtain rfl := Except.ok.inj hm
    refine ⟨node, rfl, rfl, metadata_kind inode node, ?_⟩
    unfold RamNode.content Entry.metadata
    cases node.kind <;> rfl

/-! ## The contract -/

/-- Inode numbers are left. -/
def Room (fs : RamFs) (_ : String) : Prop := fs.nextInode + 1 < wordSize

theorem info_of_metadata (hm : fs.metadata parent = .ok m) (hdir : m.kind = .directory) :
    (shape fs).info parent = some ⟨parent, .directory⟩ := by
  obtain ⟨node, hnode, -, hkind, -⟩ := metadata_ok hm
  exact info_of_directory hnode (hkind.symm.trans hdir)

theorem creates_of_spec (h : Sound fs) (hvalid : ValidName name) (hm : fs.metadata parent = .ok m)
    (hdir : m.kind = .directory) :
    Creates Sound Room fs parent name kind (fs.createNode parent name kind) := by
  have hgraph := graph_eq h
  have hchild : (graph fs).child = (shape fs).child := by rw [hgraph]; rfl
  have hspec := createNode_spec h parent name kind
  generalize fs.createNode parent name kind = result at hspec ⊢
  cases hspec with
  | refused hnot => exact absurd ⟨hvalid, info_of_metadata hm hdir⟩ hnot
  | taken hi => exact .taken (by rw [hchild]; exact hi)
  | exhausted hfree hroom => exact .refused (by rw [hchild]; exact hfree) (Nat.not_lt.mpr hroom)
  | done hfree hroom hsound _ hshape =>
    refine .linked (by rw [hchild]; exact hfree) ?_ hroom hsound rfl ?_
    · rw [hgraph]
      show ((shape fs).info fs.nextInode).map _ = none
      rw [info_eq_none.mpr h.fresh]
      rfl
    · rw [graph_eq hsound, hshape, NodeGraph.map_link, hgraph]
      cases kind <;> rfl

theorem removes_of_spec (h : Sound fs) (hvalid : ValidName name) (hm : fs.metadata parent = .ok m)
    (hdir : m.kind = .directory) : Removes Sound fs parent name (fs.remove parent name) := by
  have hgraph := graph_eq h
  have hchild : (graph fs).child = (shape fs).child := by rw [hgraph]; rfl
  have hspec := remove_spec h parent name
  generalize fs.remove parent name = result at hspec ⊢
  cases hspec with
  | refused hnot => exact absurd ⟨hvalid, info_of_metadata hm hdir⟩ hnot
  | missing hfree => exact .missing (by rw [hchild]; exact hfree)
  | notEmpty hi hm' => exact .notEmpty (by rw [hchild]; exact hi) (by rw [hchild]; exact hm')
  | done hi hleaf hsound _ hshape =>
    refine .unlinked (by rw [hchild]; exact hi) (by rw [hchild]; exact hleaf) hsound rfl ?_
    rw [graph_eq hsound, hshape, NodeGraph.map_unlink, hgraph]

/-- Whatever a request to store bytes returns, the names and kinds are as before. -/
theorem Storing.sameNames {α : Type} {stop : Nat} {update : List UInt8 → List UInt8} {value : α}
    {result : Except VfsError α × RamFs} (h : Sound fs)
    (hstoring : Storing fs inode stop update value result) :
    Sound result.2 ∧ SameNames fs result.2 := by
  have hrefl : SameNames fs fs := ⟨rfl, rfl, fun _ => rfl⟩
  cases hstoring with
  | noNode => exact ⟨h, hrefl⟩
  | isDirectory => exact ⟨h, hrefl⟩
  | overflow => exact ⟨h, hrefl⟩
  | done hinfo _ hsound _ hshape =>
    refine ⟨hsound, rfl, ?_, fun i => ?_⟩
    · rw [graph_eq hsound, graph_eq h, hshape]
      rfl
    · rw [graph_eq hsound, graph_eq h, hshape]
      show ((Function.update (shape fs).info inode _ i).map Entry.metadata).map _ =
        (((shape fs).info i).map Entry.metadata).map _
      by_cases hi : i = inode
      · subst hi
        rw [Function.update_self, hinfo]
        rfl
      · rw [Function.update_of_ne hi]

/-- The memory filesystem is a lawful backend. -/
theorem lawful : Lawful RamFs Sound (fun _ => .notDirectory) Room fun _ _ _ => True where
  tree h := by
    rw [graph_eq h]
    exact h.tree.map _
  root {fs} h := by
    obtain ⟨node, hnode, hkind⟩ := h.root
    refine ⟨_, (metadata_eq fs 1).trans (by rw [info_of_node hnode]), ?_⟩
    rw [metadata_kind, hkind]
  inode hm := (metadata_ok hm).choose_spec.2.2.2
  childless {fs p i n m} h hm hfile hlookup := by
    obtain ⟨node, hnode, -, hkind, -⟩ := metadata_ok hm
    have hchild := lookup_toOption h p n
    rw [show fs.lookup p n = .ok i from hlookup, child_of_node hnode,
      (h.node p node hnode).2.childless (hkind.symm.trans hfile)] at hchild
    cases hchild
  miss {fs p n m e} h hvalid hm hlookup := by
    obtain ⟨node, hnode, -, hkind, -⟩ := metadata_ok hm
    have heq := lookup_eq h p hvalid
    rw [show fs.lookup p n = .error e from hlookup, info_of_node hnode, Option.any_some, metadata_kind,
      ← hkind] at heq
    cases hchild : (shape fs).child p n with
    | some i =>
      rw [hchild] at heq
      cases heq
    | none =>
      rw [hchild] at heq
      simpa using Except.error.inj heq
  readDir_file {fs p m} h hm hfile := by
    obtain ⟨node, hnode, -, hkind, -⟩ := metadata_ok hm
    show fs.readDir p = _
    unfold readDir
    rw [directoryNode_of_node hnode, if_neg (by rw [← hkind, hfile]; decide)]
    rfl
  readDir {fs p m} h hm hdir := by
    obtain ⟨node, hnode, -, hkind, -⟩ := metadata_ok hm
    exact readDir_listing h hnode (hkind.symm.trans hdir)
  createFile h hvalid hm hdir := creates_of_spec h hvalid hm hdir
  createDir h hvalid hm hdir := creates_of_spec h hvalid hm hdir
  remove h hvalid hm hdir := removes_of_spec h hvalid hm hdir
  write h _ _ _ := (write_spec h _ _ _).sameNames h
  truncate h _ _ := (truncate_spec h _ _).sameNames h

end RamFs

end GenericKernel.VfsCore
