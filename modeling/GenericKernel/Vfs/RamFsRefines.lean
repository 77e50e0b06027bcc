import GenericKernel.Vfs.RamFsLogic
import GenericKernel.Vfs.Routing

/-!
# A VFS over the memory filesystem is a path map

* `RamFs.Represents` — the tree of nodes gives every path the entry that the map has there, and
  the next inode number is the map's.
* `Simulates` — what one call has to show: the same reply, a represented state behind it, and after
  an error the state before it. One lemma for each kind of call, `call_simulates` for all.
* `vfs_refines_pathMap` — every sequence of calls.
* `rounds_spec` — a file made and removed again and again, until the inode numbers are used up.
-/

namespace GenericKernel.VfsCore

open GenericKernel.Lib

namespace RamFs

/-- The map that the nodes stand for. -/
structure Represents (fs : RamFs) (m : PathMap) : Prop where
  sound : Sound fs
  entry : m.entry = (shape fs).entry 1
  next : m.next = fs.nextInode

variable {fs : RamFs} {m : PathMap} {cs : List String} {path : String}

theorem new_represents : Represents new PathMap.init := by
  refine ⟨new_sound, ?_, rfl⟩
  funext path
  cases path with
  | nil => exact (info_of_node (getElem?_new 1)).symm
  | cons name path =>
    have hchild : (shape new).child 1 name = none :=
      (child_of_node (getElem?_new 1) name).trans (freshNode_children .directory name)
    show none = ((shape new).walk 1 (name :: path)).bind _
    rw [NodeGraph.walk, hchild]
    rfl

namespace Represents

variable (h : Represents fs m)
include h

theorem metadataAt_eq : m.metadataAt = pathMap fs := by
  funext path
  rw [PathMap.metadataAt, h.entry, pathMap, graph_eq h.sound]
  exact (NodeGraph.entry_map _ _).symm

/-- Where the node of an entry is. -/
theorem walk_of_entry {e : Entry} (he : m.entry cs = some e) :
    (shape fs).walk 1 cs = some e.inode ∧ (shape fs).info e.inode = some e := by
  rw [h.entry, NodeGraph.entry, Option.bind_eq_some_iff] at he
  obtain ⟨i, hwalk, hi⟩ := he
  have hinode : e.inode = i := by
    obtain ⟨node, -, rfl⟩ := Option.map_eq_some_iff.mp hi
    rfl
  rw [hinode]
  exact ⟨hwalk, hi⟩

theorem resolve_eq (hcs : Canonical cs) : resolve fs cs = (m.find cs).map Entry.inode := by
  rw [lawful.resolve_eq h.sound hcs, ← h.metadataAt_eq]
  unfold PathMap.find PathMap.metadataAt
  cases m.entry cs with
  | none => rfl
  | some e =>
    show Except.ok e.metadata.inode = Except.ok e.inode
    unfold Entry.metadata
    cases e.node <;> rfl

/-- An entry, or one error on both sides. -/
theorem find_cases (hcs : Canonical cs) :
    (∃ e, m.find cs = .error e ∧ resolve fs cs = .error e) ∨
      ∃ e, m.find cs = .ok e ∧ resolve fs cs = .ok e.inode ∧
        (shape fs).walk 1 cs = some e.inode ∧ (shape fs).info e.inode = some e := by
  rw [h.resolve_eq hcs]
  unfold PathMap.find
  cases he : m.entry cs with
  | none => exact .inl ⟨_, rfl, rfl⟩
  | some e => exact .inr ⟨e, rfl, rfl, h.walk_of_entry he⟩

/-- A directory, or one error on both sides. -/
theorem findDirectory_cases (hcs : Canonical cs) :
    (∃ e, m.findDirectory cs = .error e ∧ resolveDir fs cs = .error e) ∨
      ∃ p, m.findDirectory cs = .ok () ∧ resolveDir fs cs = .ok p ∧
        (shape fs).walk 1 cs = some p ∧ (shape fs).info p = some ⟨p, .directory⟩ := by
  unfold PathMap.findDirectory resolveDir
  rcases h.find_cases hcs with ⟨e, hfind, hresolve⟩ | ⟨⟨i, node⟩, hfind, hresolve, hwalk, hinfo⟩
  · rw [hfind, hresolve]
    exact .inl ⟨e, rfl, rfl⟩
  · have hmetadata : FileSystem.metadata fs i = .ok (Entry.metadata ⟨i, node⟩) := by
      show fs.metadata i = _
      rw [metadata_eq, hinfo]
    rw [hfind, hresolve]
    show (∃ e, _ ∧ (FileSystem.metadata fs i >>= fun metadata => _) = _) ∨
      ∃ p, _ ∧ (FileSystem.metadata fs i >>= fun metadata => _) = _ ∧ _
    rw [hmetadata]
    cases node with
    | directory => exact .inr ⟨i, rfl, rfl, hwalk, hinfo⟩
    | file bytes => exact .inl ⟨_, rfl, rfl⟩

end Represents

/-! ## One call -/

/-- A call on a represented state, against the map's. -/
structure Simulates {α : Type} (fs : RamFs) (r : Except VfsError α × Vfs RamFs)
    (r' : Except VfsError α × PathMap) : Prop where
  reply : r.1 = r'.1
  state : ∃ fs', r.2 = Vfs.new fs' ∧ Represents fs' r'.2
  unchanged : ∀ e, r.1 = .error e → r.2 = Vfs.new fs

theorem Simulates.map {α β : Type} {r : Except VfsError α × Vfs RamFs}
    {r' : Except VfsError α × PathMap} (h : Simulates fs r r') (f : α → β) :
    Simulates fs (r.1.map f, r.2) (r'.1.map f, r'.2) := by
  refine ⟨congrArg (Except.map f) h.reply, h.state, fun e he => h.unchanged e ?_⟩
  obtain ⟨r, v⟩ := r
  cases r with
  | error e' =>
    obtain rfl : e' = e := Except.error.inj he
    rfl
  | ok a => cases he

/-- A call that succeeds. -/
theorem Represents.done {α : Type} {a : α} {fs' : RamFs} {m' : PathMap} (h : Represents fs' m') :
    Simulates fs (.ok a, Vfs.new fs') (.ok a, m') :=
  ⟨rfl, ⟨fs', rfl, h⟩, fun _ he => nomatch he⟩

namespace Represents

variable (h : Represents fs m)
include h

/-- A call that changes nothing. -/
theorem same {α : Type} {r r' : Except VfsError α} (hr : r = r') :
    Simulates fs (r, Vfs.new fs) (r', m) :=
  ⟨hr, ⟨fs, rfl, h⟩, fun _ _ => rfl⟩

theorem createAt_simulates {name : String} (kind : NodeKind) (hcs : Canonical (cs ++ [name])) :
    Simulates fs
      (match resolveDir fs cs with
        | .error e => (.error e, Vfs.new fs)
        | .ok parent =>
          ((Vfs.created (fs.createNode parent name kind)).1,
            Vfs.new (Vfs.created (fs.createNode parent name kind)).2))
      (m.createAt (freshNode kind).content (cs ++ [name])) := by
  obtain ⟨hparent, hname⟩ := Canonical.append.mp hcs
  have hvalid : ValidName name := hname name (List.mem_singleton.mpr rfl)
  unfold PathMap.createAt
  rw [if_neg (by simp), List.dropLast_concat]
  rcases h.findDirectory_cases hparent with ⟨e, hfind, hresolve⟩ | ⟨p, hfind, hresolve, hwalk, hinfo⟩
  · rw [hfind, hresolve]
    exact h.same rfl
  · rw [hfind, hresolve]
    dsimp only
    have hentry : m.entry (cs ++ [name]) = ((shape fs).child p name).bind (shape fs).info := by
      rw [h.entry, NodeGraph.entry_concat hwalk]
    have hspec := createNode_spec h.sound p name kind
    generalize fs.createNode p name kind = result at hspec ⊢
    cases hspec with
    | refused hnot => exact absurd ⟨hvalid, hinfo⟩ hnot
    | @taken i hi =>
      have hsome : (m.entry (cs ++ [name])).isSome := by
        rw [hentry, hi]
        exact (h.sound.tree.edge hi).2
      rw [if_pos hsome]
      exact h.same rfl
    | exhausted hfree hfull =>
      rw [hentry, hfree, if_neg (by simp), h.next, if_pos hfull]
      exact h.same rfl
    | @done fs' hfree hroom hsound hnext hshape =>
      rw [hentry, hfree, if_neg (by simp), h.next, if_neg (Nat.not_le.mpr hroom)]
      have hnew : FileSystem.metadata fs' fs.nextInode =
          .ok (Entry.metadata ⟨fs.nextInode, (freshNode kind).content⟩) := by
        show fs'.metadata fs.nextInode = _
        rw [metadata_eq, hshape, show ((shape fs).link p name fs.nextInode _).info fs.nextInode = _
          from Function.update_self _ _ _]
      have hstate : Represents fs' { m.set (cs ++ [name])
          (some ⟨fs.nextInode, (freshNode kind).content⟩) with next := fs.nextInode + 1 } := by
        refine ⟨hsound, ?_, hnext.symm⟩
        show Function.update m.entry (cs ++ [name]) _ = _
        rw [hshape, NodeGraph.entry_link h.sound.tree hwalk hfree (info_eq_none.mpr h.sound.fresh),
          h.entry]
      show Simulates fs (FileSystem.metadata fs' fs.nextInode, Vfs.new fs') _
      rw [hnew]
      exact hstate.done

theorem removeAt_simulates {name : String} (hcs : Canonical (cs ++ [name])) :
    Simulates fs
      (match resolveDir fs cs with
        | .error e => (.error e, Vfs.new fs)
        | .ok parent => ((fs.remove parent name).1, Vfs.new (fs.remove parent name).2))
      (m.removeAt (cs ++ [name])) := by
  obtain ⟨hparent, hname⟩ := Canonical.append.mp hcs
  have hvalid : ValidName name := hname name (List.mem_singleton.mpr rfl)
  unfold PathMap.removeAt
  rw [if_neg (by simp), List.dropLast_concat]
  rcases h.findDirectory_cases hparent with ⟨e, hfind, hresolve⟩ | ⟨p, hfind, hresolve, hwalk, hinfo⟩
  · rw [hfind, hresolve]
    exact h.same rfl
  · rw [hfind, hresolve]
    dsimp only
    have hentry : m.entry (cs ++ [name]) = ((shape fs).child p name).bind (shape fs).info := by
      rw [h.entry, NodeGraph.entry_concat hwalk]
    -- what a child's node says about the paths below it
    have hbelow : ∀ {i}, (shape fs).child p name = some i → ∀ n,
        m.entry (cs ++ [name] ++ [n]) = ((shape fs).child i n).bind (shape fs).info := by
      intro i hi n
      have hi' : (shape fs).walk 1 (cs ++ [name]) = some i := by
        rw [NodeGraph.walk_concat, hwalk]
        exact hi
      rw [h.entry, NodeGraph.entry_concat hi']
    have hlive : ∀ {q n i}, (shape fs).child q n = some i →
        ((shape fs).child q n).bind (shape fs).info ≠ none := by
      intro q n i hi
      rw [hi, ← Option.isSome_iff_ne_none]
      exact (h.sound.tree.edge hi).2
    have hspec := remove_spec h.sound p name
    generalize fs.remove p name = result at hspec ⊢
    cases hspec with
    | refused hnot => exact absurd ⟨hvalid, hinfo⟩ hnot
    | missing hfree =>
      have hnone : m.entry (cs ++ [name]) = none := by
        rw [hentry, hfree]
        rfl
      rw [if_pos hnone]
      exact h.same rfl
    | @notEmpty i n hi hn =>
      have hsome : m.entry (cs ++ [name]) ≠ none := by
        rw [hentry]
        exact hlive hi
      obtain ⟨j, hj⟩ := Option.ne_none_iff_exists'.mp hn
      have hfull : ∃ n, m.entry (cs ++ [name] ++ [n]) ≠ none := ⟨n, by rw [hbelow hi]; exact hlive hj⟩
      rw [if_neg hsome, if_pos hfull]
      exact h.same rfl
    | @done i fs' hi hleaf hsound hnext hshape =>
      have hsome : m.entry (cs ++ [name]) ≠ none := by
        rw [hentry]
        exact hlive hi
      have hempty : ¬ ∃ n, m.entry (cs ++ [name] ++ [n]) ≠ none := by
        rintro ⟨n, hn⟩
        rw [hbelow hi, hleaf n] at hn
        exact hn rfl
      rw [if_neg hsome, if_neg hempty]
      refine Represents.done ⟨hsound, ?_, h.next.trans hnext.symm⟩
      show Function.update m.entry (cs ++ [name]) _ = _
      rw [hshape, NodeGraph.entry_unlink h.sound.tree hwalk hi hleaf, h.entry]

/-- `write` and `truncate`, by their common outcomes. -/
theorem store_simulates {α : Type} {stop : Nat} {update : List UInt8 → List UInt8} {value : α}
    {op : Nat → Except VfsError α × RamFs} (hop : ∀ inode, Storing fs inode stop update value (op inode))
    (hcs : Canonical cs) :
    Simulates fs
      (match resolve fs cs with
        | .error e => (.error e, Vfs.new fs)
        | .ok inode => ((op inode).1, Vfs.new (op inode).2))
      (match m.findFile cs with
        | .error e => (.error e, m)
        | .ok (inode, bytes) =>
          if wordSize ≤ stop then (.error .offsetOverflow, m)
          else (.ok value, m.set cs (some ⟨inode, .file (update bytes)⟩))) := by
  unfold PathMap.findFile
  rcases h.find_cases hcs with ⟨e, hfind, hresolve⟩ | ⟨⟨i, node⟩, hfind, hresolve, hwalk, hinfo⟩
  · rw [hfind, hresolve]
    exact h.same rfl
  · rw [hfind, hresolve]
    dsimp only [bind, Except.bind]
    have hspec := hop i
    generalize op i = result at hspec ⊢
    cases hspec with
    | noNode hnone =>
      rw [hnone] at hinfo
      cases hinfo
    | isDirectory hdir =>
      rw [hdir] at hinfo
      cases hinfo
      exact h.same rfl
    | overflow hfile hover =>
      rw [hfile] at hinfo
      cases hinfo
      dsimp only
      rw [if_pos hover]
      exact h.same rfl
    | @done bytes fs' hfile hstop hsound hnext hshape =>
      rw [hfile] at hinfo
      cases hinfo
      dsimp only
      rw [if_neg (Nat.not_le.mpr hstop)]
      refine Represents.done ⟨hsound, ?_, h.next.trans hnext.symm⟩
      show Function.update m.entry cs _ = _
      rw [hshape, h.sound.tree.entry_setInfo hwalk, h.entry]

theorem metadata_eq (hcs : canonicalPath path = .ok cs) :
    (Vfs.new fs).metadata path = m.metadataOf cs := by
  unfold Vfs.metadata PathMap.metadataOf
  rw [Vfs.withInode_new hcs]
  rcases h.find_cases (canonicalPath_canonical hcs) with ⟨e, hfind, hresolve⟩ | ⟨e, hfind, hresolve, -, hinfo⟩
  · rw [hfind, hresolve]
    rfl
  · rw [hfind, hresolve]
    show fs.metadata e.inode = _
    rw [RamFs.metadata_eq, hinfo]
    rfl

theorem read_eq (hcs : canonicalPath path = .ok cs) (offset bufferLen : Nat) :
    (Vfs.new fs).read path offset bufferLen = m.readAt offset bufferLen cs := by
  unfold Vfs.read PathMap.readAt PathMap.findFile
  rw [Vfs.withInode_new hcs]
  rcases h.find_cases (canonicalPath_canonical hcs) with
    ⟨e, hfind, hresolve⟩ | ⟨⟨i, node⟩, hfind, hresolve, -, hinfo⟩
  · rw [hfind, hresolve]
    rfl
  · rw [hfind, hresolve]
    show fs.read i offset bufferLen = _
    rw [RamFs.read_eq, hinfo]
    cases node <;> rfl

theorem readAll_eq (hcs : canonicalPath path = .ok cs) :
    (Vfs.new fs).readAll path = m.readAllAt cs := by
  unfold Vfs.readAll
  rw [h.metadata_eq hcs]
  unfold PathMap.metadataOf PathMap.readAllAt PathMap.findFile
  cases hfind : m.find cs with
  | error e => rfl
  | ok e =>
    obtain ⟨i, node⟩ := e
    cases node with
    | directory => rfl
    | file bytes =>
      show (if NodeKind.file = .directory then Except.error .isDirectory else
        (Vfs.new fs).read path 0 bytes.length) = .ok bytes
      rw [if_neg (by decide), h.read_eq hcs]
      unfold PathMap.readAt PathMap.findFile
      rw [hfind]
      show Except.ok ((bytes.drop 0).take bytes.length) = _
      rw [List.drop_zero, List.take_length]

theorem readDir_eq (hcs : canonicalPath path = .ok cs) :
    (Vfs.new fs).readDir path = m.readDirAt cs := by
  unfold Vfs.readDir PathMap.readDirAt PathMap.findDirectory
  rw [Vfs.withInode_new hcs]
  rcases h.find_cases (canonicalPath_canonical hcs) with
    ⟨e, hfind, hresolve⟩ | ⟨⟨i, node⟩, hfind, hresolve, hwalk, hinfo⟩
  · rw [hfind, hresolve]
    rfl
  · have hmetadata : FileSystem.metadata fs i = .ok (Entry.metadata ⟨i, node⟩) := by
      show fs.metadata i = _
      rw [RamFs.metadata_eq, hinfo]
    rw [hfind, hresolve]
    show FileSystem.readDir fs i = _
    cases node with
    | file bytes =>
      rw [lawful.readDir_file h.sound hmetadata rfl]
      rfl
    | directory =>
      obtain ⟨entries, hread, hlisting⟩ := lawful.readDir h.sound hmetadata rfl
      have hnames : (fun n => ((graph fs).child i n).bind (graph fs).info) =
          fun n => m.metadataAt (cs ++ [n]) := by
        funext n
        have hwalk' : (graph fs).walk 1 cs = some i := by
          rw [graph_eq h.sound, NodeGraph.walk_map]
          exact hwalk
        rw [h.metadataAt_eq]
        exact (NodeGraph.entry_concat hwalk' n).symm
      rw [hnames] at hlisting
      rw [hread]
      exact congrArg Except.ok (hlisting.unique (Classical.epsilon_spec ⟨entries, hlisting⟩))

/-! ## Every call -/

theorem parent_simulates {α : Type} {op : RamFs → Nat → String → Except VfsError α × RamFs}
    {op' : List String → Except VfsError α × PathMap} (hroot : op' [] = (.error .rootImmutable, m))
    (hop : ∀ q name, Canonical (q ++ [name]) → Simulates fs
      (match resolveDir fs q with
        | .error e => (.error e, Vfs.new fs)
        | .ok parent => ((op fs parent name).1, Vfs.new (op fs parent name).2))
      (op' (q ++ [name]))) (path : String) :
    Simulates fs ((Vfs.new fs).withParentMut path op) (m.onPath path op') := by
  unfold PathMap.onPath
  cases hcs : canonicalPath path with
  | error e =>
    rw [Vfs.withParentMut_of_error hcs]
    exact h.same rfl
  | ok cs =>
    rcases List.eq_nil_or_concat cs with rfl | ⟨q, name, rfl⟩
    · rw [Vfs.withParentMut_new_root hcs]
      dsimp only
      rw [hroot]
      exact h.same rfl
    · rw [List.concat_eq_append] at hcs ⊢
      rw [Vfs.withParentMut_new hcs]
      exact hop q name (canonicalPath_canonical hcs)

theorem inode_simulates {α : Type} {op : RamFs → Nat → Except VfsError α × RamFs}
    {op' : List String → Except VfsError α × PathMap}
    (hop : ∀ cs, Canonical cs → Simulates fs
      (match resolve fs cs with
        | .error e => (.error e, Vfs.new fs)
        | .ok inode => ((op fs inode).1, Vfs.new (op fs inode).2))
      (op' cs))
    (path : String) :
    Simulates fs ((Vfs.new fs).withInodeMut path op) (m.onPath path op') := by
  unfold PathMap.onPath
  cases hcs : canonicalPath path with
  | error e =>
    rw [Vfs.withInodeMut_of_error hcs]
    exact h.same rfl
  | ok cs =>
    rw [Vfs.withInodeMut_new hcs]
    exact hop cs (canonicalPath_canonical hcs)

theorem look_simulates {α : Type} {look : Except VfsError α} {look' : List String → Except VfsError α}
    (hbad : ∀ e, canonicalPath path = .error e → look = .error e)
    (hlook : ∀ cs, canonicalPath path = .ok cs → look = look' cs) :
    Simulates fs (look, Vfs.new fs) (canonicalPath path >>= look', m) := by
  cases hcs : canonicalPath path with
  | error e => exact h.same (hbad e hcs)
  | ok cs => exact h.same (hlook cs hcs)

/-- **One call.** -/
theorem call_simulates (c : Call) : Simulates fs ((Vfs.new fs).call c) (m.call c) := by
  cases c with
  | createFile path =>
    exact (h.parent_simulates rfl (fun q name hq => h.createAt_simulates .file hq) path).map _
  | createDir path =>
    exact (h.parent_simulates rfl (fun q name hq => h.createAt_simulates .directory hq) path).map _
  | remove path =>
    refine (h.parent_simulates ?_ (fun q name hq => h.removeAt_simulates hq) path).map _
    exact if_pos rfl
  | write path offset data =>
    exact (h.inode_simulates (fun cs hcs => h.store_simulates
      (fun inode => write_spec h.sound inode offset data) hcs) path).map _
  | truncate path len =>
    refine (h.inode_simulates (fun cs hcs => ?_) path).map _
    have hstore := h.store_simulates (fun inode => truncate_spec h.sound inode len) hcs
    simp only [Nat.not_le.mpr wordSize_pos, if_false] at hstore
    exact hstore
  | read path offset bufferLen =>
    exact (h.look_simulates (fun e he => Vfs.withInode_of_error he _)
      fun cs hcs => h.read_eq hcs offset bufferLen).map _
  | readAll path =>
    refine (h.look_simulates (fun e he => ?_) fun cs hcs => h.readAll_eq hcs).map _
    unfold Vfs.readAll Vfs.metadata
    rw [Vfs.withInode_of_error he]
    rfl
  | readDir path =>
    exact (h.look_simulates (fun e he => Vfs.withInode_of_error he _) fun cs hcs => h.readDir_eq hcs).map _
  | metadata path =>
    exact (h.look_simulates (fun e he => Vfs.withInode_of_error he _) fun cs hcs => h.metadata_eq hcs).map _

end Represents

end RamFs

/-! ## Every sequence of calls -/

open RamFs

/-- **Simulation of a run.** -/
theorem RamFs.Represents.serve {fs : RamFs} {m : PathMap} (h : Represents fs m) (calls : List Call) :
    (Lib.serve Vfs.call (Vfs.new fs) calls).1 = (Lib.serve PathMap.call m calls).1 ∧
      ∃ fs', (Lib.serve Vfs.call (Vfs.new fs) calls).2 = Vfs.new fs' ∧
        Represents fs' (Lib.serve PathMap.call m calls).2 := by
  have hstep : ∀ (v : Vfs RamFs) (m : PathMap) (c : Call),
      (∃ fs, v = Vfs.new fs ∧ Represents fs m) → True →
      (v.call c).1 = (m.call c).1 ∧ ∃ fs', (v.call c).2 = Vfs.new fs' ∧ Represents fs' (m.call c).2 := by
    rintro v m c ⟨fs, rfl, hfs⟩ -
    exact ⟨(hfs.call_simulates c).reply, (hfs.call_simulates c).state⟩
  obtain ⟨hreplies, hstate⟩ := Each.serve hstep ⟨fs, rfl, h⟩ (each_true _ _ calls)
  rw [List.forall₂_eq_eq_eq] at hreplies
  exact ⟨hreplies, hstate⟩

/-- The state after a call, when the map behind it is known. -/
theorem RamFs.Represents.after {fs : RamFs} {m m' : PathMap} {c : Call} {r : Except VfsError Reply}
    (h : Represents fs m) (hcall : m.call c = (r, m')) :
    ∃ fs', (Vfs.new fs).call c = (r, Vfs.new fs') ∧ Represents fs' m' := by
  have hsim := h.call_simulates c
  rw [hcall] at hsim
  obtain ⟨fs', hstate, hfs'⟩ := hsim.state
  exact ⟨fs', Prod.ext hsim.reply hstate, hfs'⟩

/-- What a path shows, once it is known to be represented. -/
theorem RamFs.Represents.look_of_entry {fs fs' : RamFs} {m m' : PathMap} (h : Represents fs m)
    (h' : Represents fs' m') {path : String}
    (hentry : ∀ cs, canonicalPath path = .ok cs → m'.entry cs = m.entry cs) :
    ((Vfs.new fs').metadata path).toOption = ((Vfs.new fs).metadata path).toOption ∧
      ((Vfs.new fs').readAll path).toOption = ((Vfs.new fs).readAll path).toOption := by
  cases hcs : canonicalPath path with
  | error e =>
    have hnone : ∀ fs : RamFs, (Vfs.new fs).metadata path = .error e := fun fs =>
      Vfs.withInode_of_error hcs _
    unfold Vfs.readAll
    rw [hnone, hnone]
    show none = none ∧ none = none
    exact ⟨rfl, rfl⟩
  | ok cs =>
    rw [h.metadata_eq hcs, h'.metadata_eq hcs, h.readAll_eq hcs, h'.readAll_eq hcs]
    unfold PathMap.metadataOf PathMap.readAllAt PathMap.findFile PathMap.find
    rw [hentry cs hcs]
    cases m.entry cs with
    | none =>
      -- the errors may differ, but both are errors
      show none = none ∧ none = none
      exact ⟨rfl, rfl⟩
    | some entry => exact ⟨rfl, rfl⟩

/-- A VFS over a fresh memory filesystem, after some calls. -/
def afterCalls (calls : List Call) : Vfs RamFs := (serve Vfs.call (Vfs.new RamFs.new) calls).2

/-- **A VFS over the memory filesystem refines a path map.** After any calls: the replies were
those of the map; an error changes nothing; a call changes what no other path shows; and the
inode number of a new node has not been given out before. -/
theorem vfs_refines_pathMap (calls : List Call) :
    (serve Vfs.call (Vfs.new RamFs.new) calls).1 = (serve PathMap.call PathMap.init calls).1 ∧
    (serve PathMap.call PathMap.init calls).2.WellFormed ∧
    ∀ c : Call,
      (∀ e, ((afterCalls calls).call c).1 = .error e →
        ((afterCalls calls).call c).2 = afterCalls calls) ∧
      (∀ path, canonicalPath path ≠ canonicalPath c.path →
        (((afterCalls calls).call c).2.metadata path).toOption =
          ((afterCalls calls).metadata path).toOption ∧
        (((afterCalls calls).call c).2.readAll path).toOption =
          ((afterCalls calls).readAll path).toOption) ∧
      ∀ x, c.Creates → ((afterCalls calls).call c).1 = .ok (.metadata x) →
        ∀ (more : List Call) (c' : Call) x', c'.Creates →
        ((serve Vfs.call ((afterCalls calls).call c).2 more).2.call c').1 = .ok (.metadata x') →
        x.inode < x'.inode := by
  obtain ⟨hreplies, fs, hv, hfs⟩ := new_represents.serve calls
  refine ⟨hreplies, @serve_invariant _ _ _ PathMap.call PathMap.WellFormed
    (fun _ c hm => PathMap.call_wellFormed hm c) calls _ PathMap.init_wellFormed, fun c => ?_⟩
  generalize (serve PathMap.call PathMap.init calls).2 = m at hfs
  rw [show afterCalls calls = Vfs.new fs from hv]
  have hcall := hfs.call_simulates c
  obtain ⟨fs₁, hv₁, hfs₁⟩ := hcall.state
  refine ⟨hcall.unchanged, fun path hne => ?_, fun x hc hx more c' x' hc' hx' => ?_⟩
  · rw [hv₁]
    refine hfs.look_of_entry hfs₁ fun cs hcs => PathMap.call_other m c ?_
    rw [← hcs]
    exact Ne.symm hne
  · rw [hv₁] at hx'
    obtain ⟨-, fs₂, hv₂, hfs₂⟩ := hfs₁.serve more
    rw [hv₂] at hx'
    rw [hcall.reply] at hx
    rw [(hfs₂.call_simulates c').reply] at hx'
    obtain ⟨hinode, hnext⟩ := PathMap.call_creates hc hx
    obtain ⟨hinode', -⟩ := PathMap.call_creates hc' hx'
    have hle : (m.call c).2.next ≤ (serve PathMap.call (m.call c).2 more).2.next :=
      @serve_invariant _ _ _ PathMap.call (fun m' => (m.call c).2.next ≤ m'.next)
        (fun m' c hm => hm.trans (PathMap.call_next_le m' c)) more _ le_rfl
    omega

/-! ## What a path shows, by its entry -/

section Entries

variable {fs : RamFs} {m : PathMap}

/-- Where the parent is a directory, a free path is not found. -/
theorem metadata_of_free {cs : List String} {i : Nat} (h : RamFs.Represents fs m)
    (hcs : canonicalPath (joinPath cs) = .ok cs) (hne : cs ≠ []) (hfree : m.entry cs = none)
    (hparent : m.entry cs.dropLast = some ⟨i, .directory⟩) :
    (Vfs.new fs).metadata (joinPath cs) = .error .notFound := by
  obtain ⟨q, n, rfl⟩ := (List.eq_nil_or_concat cs).resolve_left hne
  rw [List.concat_eq_append] at hcs hfree hparent ⊢
  rw [List.dropLast_concat] at hparent
  rw [h.metadata_eq hcs]
  unfold PathMap.metadataOf PathMap.find
  rw [hfree, h.metadataAt_eq]
  have hq : pathMap fs q = some ⟨i, .directory, 0⟩ := by
    rw [← h.metadataAt_eq, PathMap.metadataAt, hparent]
    rfl
  have hnone : pathMap fs (q ++ [n]) = none := by
    rw [← h.metadataAt_eq, PathMap.metadataAt, hfree]
    rfl
  have hmiss := RamFs.lawful.missError_concat h.sound hq hnone .notDirectory
  rw [if_neg (show NodeKind.directory ≠ .file by decide)] at hmiss
  dsimp only
  rw [hmiss]
  rfl

theorem metadata_of_entry {cs : List String} {e : Entry} (h : RamFs.Represents fs m)
    (hcs : canonicalPath (joinPath cs) = .ok cs) (hentry : m.entry cs = some e) :
    (Vfs.new fs).metadata (joinPath cs) = .ok e.metadata := by
  rw [h.metadata_eq hcs]
  unfold PathMap.metadataOf PathMap.find
  rw [hentry]
  rfl

/-- What `metadata` says about a path, and its entry. -/
theorem metadata_toOption {cs : List String} (h : RamFs.Represents fs m)
    (hcs : canonicalPath (joinPath cs) = .ok cs) :
    ((Vfs.new fs).metadata (joinPath cs)).toOption = (m.entry cs).map Entry.metadata := by
  rw [h.metadata_eq hcs]
  unfold PathMap.metadataOf PathMap.find
  cases m.entry cs <;> rfl

end Entries

/-! ## Until there is no number left -/

/-- A map with nothing but the root. -/
def emptyMap (next : Nat) : PathMap := ⟨PathMap.init.entry, next⟩

/-- The same with a file `/f`. -/
def oneFile (next : Nat) : PathMap :=
  { (emptyMap next).set ["f"] (some ⟨next, .file []⟩) with next := next + 1 }

theorem canonicalPath_f : canonicalPath "/f" = .ok ["f"] := by decide +kernel

theorem oneFile_entry (next : Nat) (path : List String) : (oneFile next).entry path =
    if path = ["f"] then some ⟨next, .file []⟩ else if path = [] then some ⟨1, .directory⟩ else none := by
  show Function.update PathMap.init.entry ["f"] _ path = _
  by_cases hpath : path = ["f"]
  · rw [hpath, Function.update_self, if_pos rfl]
  · rw [Function.update_of_ne hpath, if_neg hpath]
    rfl

theorem emptyMap_create {next : Nat} (h : next + 1 < wordSize) :
    (emptyMap next).call (.createFile "/f") = (.ok (.metadata ⟨next, .file, 0⟩), oneFile next) :=
  PathMap.call_createFile canonicalPath_f
    (@PathMap.createAt_free (emptyMap next) ["f"] 1 (.file []) (by simp) rfl rfl h)

theorem emptyMap_exhausted {next : Nat} (h : wordSize ≤ next + 1) :
    (emptyMap next).call (.createFile "/f") = (.error .inodeExhausted, emptyMap next) := by
  have hcreate : (emptyMap next).createAt (.file []) ["f"] =
      (.error .inodeExhausted, emptyMap next) := by
    show (if wordSize ≤ next + 1 then _ else _) = _
    rw [if_pos h]
  exact PathMap.call_createFile canonicalPath_f hcreate

theorem oneFile_remove (next : Nat) :
    (oneFile next).call (.remove "/f") = (.ok .done, emptyMap (next + 1)) := by
  have hremove : (oneFile next).removeAt ["f"] = (.ok (), emptyMap (next + 1)) := by
    have hleaf : ¬ ∃ name, (oneFile next).entry (["f"] ++ [name]) ≠ none := by
      rintro ⟨name, hname⟩
      rw [oneFile_entry, if_neg (by simp), if_neg (by simp)] at hname
      exact hname rfl
    have hsome : (oneFile next).entry ["f"] ≠ none := by
      rw [oneFile_entry, if_pos rfl]
      simp
    have hdir : (oneFile next).findDirectory (["f"] : List String).dropLast = .ok () := rfl
    unfold PathMap.removeAt
    rw [if_neg (by simp), hdir]
    dsimp only
    rw [if_neg hsome, if_neg hleaf]
    have hback : ((oneFile next).set ["f"] none).entry = PathMap.init.entry := by
      show Function.update (Function.update PathMap.init.entry ["f"] _) ["f"] none = _
      rw [Function.update_idem]
      exact Function.update_eq_self_iff.mpr rfl
    unfold emptyMap
    rw [← hback]
    rfl
  simp only [PathMap.call, PathMap.onPath, canonicalPath_f, hremove]
  rfl

/-- Making a file and removing it again, some times over. -/
def rounds : Nat → List Call
  | 0 => []
  | n + 1 => .createFile "/f" :: .remove "/f" :: rounds n

/-- Every round takes one number, and what holds of a call in these states holds of all the calls. -/
theorem rounds_spec {P : Vfs RamFs → Call → Prop}
    (hcreates : ∀ {fs next}, RamFs.Represents fs (emptyMap next) → next + 1 < wordSize →
      P (Vfs.new fs) (.createFile "/f"))
    (hremoves : ∀ {fs next}, RamFs.Represents fs (oneFile next) → P (Vfs.new fs) (.remove "/f"))
    (n : Nat) : ∀ {fs : RamFs} {next : Nat}, RamFs.Represents fs (emptyMap next) →
    next + n < wordSize → Each (fun v c => (Vfs.call v c).2) P (Vfs.new fs) (rounds n) ∧
    ∃ fs', (serve Vfs.call (Vfs.new fs) (rounds n)).2 = Vfs.new fs' ∧
      RamFs.Represents fs' (emptyMap (next + n)) := by
  induction n with
  | zero => exact fun {fs next} h _ => ⟨trivial, fs, rfl, h⟩
  | succ n ih =>
    intro fs next h hlt
    have hroom : next + 1 < wordSize := by omega
    obtain ⟨fs₁, hcreate, h₁⟩ := h.after (emptyMap_create hroom)
    obtain ⟨fs₂, hremove, h₂⟩ := h₁.after (oneFile_remove next)
    obtain ⟨heach, fs₃, hstate, h₃⟩ := ih h₂ (by omega)
    refine ⟨⟨hcreates h hroom, ?_⟩, fs₃, ?_, ?_⟩
    · show Each _ _ ((Vfs.new fs).call (.createFile "/f")).2 _
      rw [hcreate]
      refine ⟨hremoves h₁, ?_⟩
      show Each _ _ ((Vfs.new fs₁).call (.remove "/f")).2 _
      rw [hremove]
      exact heach
    · rw [rounds, serve, hcreate, serve, hremove]
      exact hstate
    · rw [show next + (n + 1) = next + 1 + n by omega]
      exact h₃

end GenericKernel.VfsCore
