import Mathlib.Logic.Relator
import GenericKernel.Vfs.Routing
import GenericKernel.Vfs.Lawful

/-!
# Two backends, one namespace

Two lawful backends, each the only filesystem of a `Vfs`.

* `SameTree` — the same paths, with nodes of the same kind and length.
* `Twin` — the inodes at the end of one path; a one-to-one relation (`twin_biUnique`), which is the
  renaming that replies are compared under (`SameReply`).
* `RunsThroughFile` — a path that goes on below a file. The backends may give it different errors.
* `namespace_step` — a call of the namespace keeps the trees the same and gets the same reply from
  both, unless it runs through a file.
-/

namespace GenericKernel.VfsCore

open GenericKernel.Lib

/-- What there is to metadata without the inode. -/
def face (m : Metadata) : NodeKind × Nat := (m.kind, m.len)

section Replies

variable (ρ : Nat → Nat → Prop)

structure SameMetadata (m m' : Metadata) : Prop where
  inode : ρ m.inode m'.inode
  same : face m = face m'

structure SameEntry (x x' : DirEntry) : Prop where
  name : x.name = x'.name
  metadata : SameMetadata ρ x.metadata x'.metadata

/-- Replies of the namespace calls, up to a renaming. -/
inductive SameReply : Except VfsError Reply → Except VfsError Reply → Prop
  | error (e : VfsError) : SameReply (.error e) (.error e)
  | metadata {m m' : Metadata} : SameMetadata ρ m m' → SameReply (.ok (.metadata m)) (.ok (.metadata m'))
  | entries {xs xs' : List DirEntry} : List.Forall₂ (SameEntry ρ) xs xs' →
      SameReply (.ok (.entries xs)) (.ok (.entries xs'))
  | done : SameReply (.ok .done) (.ok .done)

end Replies

/-- The calls that deal with names only. -/
def Call.IsNamespace : Call → Prop
  | .createFile _ => True
  | .createDir _ => True
  | .remove _ => True
  | .metadata _ => True
  | .readDir _ => True
  | _ => False

/-- The path that a call resolves: creating and removing resolve the parent. -/
def Call.resolved : Call → List String → List String
  | .createFile _, cs => cs.dropLast
  | .createDir _, cs => cs.dropLast
  | .remove _, cs => cs.dropLast
  | _, cs => cs

section Backend

variable {F : Type} [FileSystem F]

/-- Somewhere above its end the path meets a file. -/
def RunsThroughFile (fs : F) (path : List String) : Prop :=
  ∃ q rest, path = q ++ rest ∧ rest ≠ [] ∧ ∃ m, pathMap fs q = some m ∧ m.kind = .file

theorem missError_of_not_through {fs : F} {path : List String} (hnone : pathMap fs path = none)
    (hthrough : ¬ RunsThroughFile fs path) (t : VfsError) :
    missError t (pathMap fs) path = .notFound := by
  unfold missError
  refine if_neg fun hany => ?_
  obtain ⟨q, hq, hfile⟩ := List.any_eq_true.mp hany
  obtain ⟨rest, rfl⟩ := (List.mem_inits _ _).mp hq
  cases hm : pathMap fs q with
  | none => simp [hm] at hfile
  | some m =>
    refine hthrough ⟨q, rest, rfl, ?_, m, hm, by simpa [hm] using hfile⟩
    rintro rfl
    rw [List.append_nil, hm] at hnone
    cases hnone

end Backend

section Twins

variable {F G : Type} [FileSystem F] [FileSystem G]

structure SameTree (fs : F) (gs : G) : Prop where
  same : ∀ path, (pathMap fs path).map face = (pathMap gs path).map face

/-- The inodes at the end of one path. -/
def Twin (fs : F) (gs : G) (i j : Nat) : Prop :=
  ∃ path, (graph fs).walk (FileSystem.rootInode fs) path = some i ∧
    (graph gs).walk (FileSystem.rootInode gs) path = some j

variable {Inv : F → Prop} {through : F → VfsError} {Room : F → String → Prop}
  {Storable : F → Nat → Nat → Prop} (law : Lawful F Inv through Room Storable)
  {Inv' : G → Prop} {through' : G → VfsError} {Room' : G → String → Prop}
  {Storable' : G → Nat → Nat → Prop} (law' : Lawful G Inv' through' Room' Storable')
  {fs : F} {gs : G}

include law law' in
/-- A node has one path, so twins are one to one. -/
theorem twin_biUnique (hfs : Inv fs) (hgs : Inv' gs) : Relator.BiUnique (Twin fs gs) := by
  constructor
  · rintro i i' j ⟨path, hi, hj⟩ ⟨path', hi', hj'⟩
    obtain rfl := (law'.tree hgs).walk_inj hj hj'
    exact Option.some.inj (hi.symm.trans hi')
  · rintro i j j' ⟨path, hi, hj⟩ ⟨path', hi', hj'⟩
    obtain rfl := (law.tree hfs).walk_inj hi hi'
    exact Option.some.inj (hj.symm.trans hj')

theorem SameTree.eq_none (h : SameTree fs gs) {path : List String} :
    pathMap fs path = none ↔ pathMap gs path = none := by
  have hface := h.same path
  cases hfs : pathMap fs path with
  | none =>
    rw [hfs] at hface
    exact ⟨fun _ => Option.map_eq_none_iff.mp hface.symm, fun _ => rfl⟩
  | some m =>
    rw [hfs] at hface
    constructor
    · intro hm
      cases hm
    · intro hgs
      rw [hgs] at hface
      cases hface

theorem SameTree.of_some (h : SameTree fs gs) {path : List String} {m : Metadata}
    (hm : pathMap fs path = some m) : ∃ m', pathMap gs path = some m' ∧ face m = face m' := by
  have hface := h.same path
  rw [hm] at hface
  obtain ⟨m', hm', heq⟩ := Option.map_eq_some_iff.mp hface.symm
  exact ⟨m', hm', heq.symm⟩

theorem SameTree.update (h : SameTree fs gs) {fs' : F} {gs' : G} {path : List String}
    {x y : Option Metadata} (hface : x.map face = y.map face)
    (hfs : pathMap fs' = Function.update (pathMap fs) path x)
    (hgs : pathMap gs' = Function.update (pathMap gs) path y) : SameTree fs' gs' := by
  refine ⟨fun q => ?_⟩
  rw [hfs, hgs]
  by_cases hq : q = path
  · rw [hq, Function.update_self, Function.update_self, hface]
  · rw [Function.update_of_ne hq, Function.update_of_ne hq]
    exact h.same q

theorem SameTree.through_iff (h : SameTree fs gs) {path : List String} :
    RunsThroughFile fs path ↔ RunsThroughFile gs path := by
  have hfile : ∀ q, (∃ m, pathMap fs q = some m ∧ m.kind = .file) ↔
      ∃ m, pathMap gs q = some m ∧ m.kind = .file := by
    intro q
    have hkind : ∀ x : Option Metadata, (∃ m, x = some m ∧ m.kind = .file) ↔
        ∃ n, x.map face = some (.file, n) := by
      intro x
      cases x with
      | none => simp
      | some m => simp [face]
    rw [hkind, hkind, h.same]
  exact exists_congr fun q => exists_congr fun rest => by rw [hfile]

/-- What is missing from both is missed with the same error where no file is in the way. -/
theorem SameTree.missError_eq (h : SameTree fs gs) {path : List String}
    (hm : pathMap fs path = none) {t t' : VfsError} (hthrough : ¬ RunsThroughFile fs path) :
    missError t (pathMap fs) path = missError t' (pathMap gs) path := by
  have hthrough' : ¬ RunsThroughFile gs path := fun hgs => hthrough (h.through_iff.mpr hgs)
  rw [missError_of_not_through hm hthrough,
    missError_of_not_through (h.eq_none.mp hm) hthrough']

/-! ## Resolving -/

section Resolve

variable {path : List String} (hfs : Inv fs) (hgs : Inv' gs) (h : SameTree fs gs)
include law law' hfs hgs h

/-- Both find the node, or both fail; with the same error if no file is in the way. -/
theorem resolve_same (hpath : Canonical path) :
    (∃ e e', resolve fs path = .error e ∧ resolve gs path = .error e' ∧
      (¬ RunsThroughFile fs path → e = e')) ∨
    ∃ m m', pathMap fs path = some m ∧ pathMap gs path = some m' ∧ face m = face m' ∧
      resolve fs path = .ok m.inode ∧ resolve gs path = .ok m'.inode := by
  have hresolve := law.resolve_eq hfs hpath
  have hresolve' := law'.resolve_eq hgs hpath
  cases hm : pathMap fs path with
  | none =>
    have hm' := h.eq_none.mp hm
    rw [hm] at hresolve
    rw [hm'] at hresolve'
    exact .inl ⟨_, _, hresolve, hresolve', h.missError_eq hm⟩
  | some m =>
    obtain ⟨m', hm', hface⟩ := h.of_some hm
    rw [hm] at hresolve
    rw [hm'] at hresolve'
    exact .inr ⟨m, m', rfl, hm', hface, hresolve, hresolve'⟩

theorem resolveDir_same (hpath : Canonical path) :
    (∃ e e', resolveDir fs path = .error e ∧ resolveDir gs path = .error e' ∧
      (¬ RunsThroughFile fs path → e = e')) ∨
    ∃ m m', pathMap fs path = some m ∧ pathMap gs path = some m' ∧ m.kind = .directory ∧
      m'.kind = .directory ∧ resolveDir fs path = .ok m.inode ∧ resolveDir gs path = .ok m'.inode := by
  have hresolve := law.resolveDir_eq hfs hpath
  have hresolve' := law'.resolveDir_eq hgs hpath
  cases hm : pathMap fs path with
  | none =>
    have hm' := h.eq_none.mp hm
    rw [hm] at hresolve
    rw [hm'] at hresolve'
    exact .inl ⟨_, _, hresolve, hresolve', h.missError_eq hm⟩
  | some m =>
    obtain ⟨m', hm', hface⟩ := h.of_some hm
    have hkind : m.kind = m'.kind := congrArg Prod.fst hface
    rw [hm] at hresolve
    rw [hm'] at hresolve'
    dsimp only at hresolve hresolve'
    by_cases hdir : m.kind = .directory
    · have hdir' : m'.kind = .directory := hkind ▸ hdir
      rw [if_pos hdir] at hresolve
      rw [if_pos hdir'] at hresolve'
      exact .inr ⟨m, m', rfl, hm', hdir, hdir', hresolve, hresolve'⟩
    · rw [if_neg hdir] at hresolve
      rw [if_neg (hkind ▸ hdir)] at hresolve'
      exact .inl ⟨_, _, hresolve, hresolve', fun _ => rfl⟩

end Resolve

end Twins

/-! ## Creating and removing in a lawful backend -/

namespace Lawful

variable {F : Type} [FileSystem F] {Inv : F → Prop} {through : F → VfsError}
  {Room : F → String → Prop} {Storable : F → Nat → Nat → Prop}
  (law : Lawful F Inv through Room Storable) {fs : F} {q : List String} {m : Metadata} {n : String}
include law

/-- A name is taken when its path has an entry. -/
theorem child_eq_none (hinv : Inv fs) (hm : pathMap fs q = some m) :
    (graph fs).child m.inode n = none ↔ pathMap fs (q ++ [n]) = none := by
  have hwalk := (law.walk_of_pathMap hm).1
  rw [pathMap, NodeGraph.entry_concat hwalk]
  cases hchild : (graph fs).child m.inode n with
  | none => simp
  | some i =>
    have hlive := ((law.tree hinv).edge hchild).2
    rw [Option.isSome_iff_ne_none] at hlive
    simp [hlive]

/-- The path of a child. -/
theorem walk_child {i : Nat} (hm : pathMap fs q = some m)
    (hi : (graph fs).child m.inode n = some i) :
    (graph fs).walk (FileSystem.rootInode fs) (q ++ [n]) = some i := by
  rw [NodeGraph.walk_concat, (law.walk_of_pathMap hm).1]
  exact hi

/-- A new node in the path map. -/
theorem pathMap_link {fs' : F} {i : Nat} {x : Metadata} (hinv : Inv fs) (hm : pathMap fs q = some m)
    (hfree : (graph fs).child m.inode n = none) (hdead : (graph fs).info i = none)
    (hroot : FileSystem.rootInode fs' = FileSystem.rootInode fs)
    (hgraph : graph fs' = (graph fs).link m.inode n i x) :
    pathMap fs' = Function.update (pathMap fs) (q ++ [n]) (some x) ∧
      (graph fs').walk (FileSystem.rootInode fs') (q ++ [n]) = some i ∧
      FileSystem.metadata fs' i = .ok x := by
  have hwalk := (law.walk_of_pathMap hm).1
  refine ⟨?_, ?_, ?_⟩
  · rw [pathMap, hroot, hgraph, NodeGraph.entry_link (law.tree hinv) hwalk hfree hdead]
    rfl
  · rw [hroot, hgraph, NodeGraph.walk_link (law.tree hinv) hwalk hfree hdead, if_pos rfl]
  · refine toOption_eq_some.mp (?_ : (graph fs').info i = some x)
    rw [hgraph]
    exact Function.update_self _ _ _

/-- A node taken out of the path map. -/
theorem pathMap_unlink {fs' : F} {i : Nat} (hinv : Inv fs) (hm : pathMap fs q = some m)
    (hi : (graph fs).child m.inode n = some i) (hleaf : ∀ s, (graph fs).child i s = none)
    (hroot : FileSystem.rootInode fs' = FileSystem.rootInode fs)
    (hgraph : graph fs' = (graph fs).unlink m.inode n i) :
    pathMap fs' = Function.update (pathMap fs) (q ++ [n]) none := by
  have hwalk := (law.walk_of_pathMap hm).1
  rw [pathMap, hroot, hgraph, NodeGraph.entry_unlink (law.tree hinv) hwalk hi hleaf]
  rfl

/-- Whether there is anything below a child. -/
theorem below_eq_none {i : Nat} (hinv : Inv fs) (hm : pathMap fs q = some m)
    (hi : (graph fs).child m.inode n = some i) (s : String) :
    (graph fs).child i s = none ↔ pathMap fs (q ++ [n] ++ [s]) = none := by
  obtain ⟨x, -, hinode, hx⟩ := law.metadata_of_walk hinv (law.walk_child hm hi)
  rw [← law.child_eq_none hinv hx, hinode]

/-- The children of a directory, by path. -/
theorem listing_paths (hm : pathMap fs q = some m) :
    (fun n => ((graph fs).child m.inode n).bind (graph fs).info) = fun n => pathMap fs (q ++ [n]) := by
  funext n
  exact (NodeGraph.entry_concat (law.walk_of_pathMap hm).1 n).symm

end Lawful

/-! ## One call on both -/

section Step

variable {F G : Type} [FileSystem F] [FileSystem G]

/-- Both sides of a call: the trees are the same behind it, and so are the replies, unless the path
`through` says otherwise. -/
structure Tallies (Inv : F → Prop) (Inv' : G → Prop) (through : Prop)
    (r : Except VfsError Reply × Vfs F) (r' : Except VfsError Reply × Vfs G) (fs' : F) (gs' : G) :
    Prop where
  state : r.2 = Vfs.new fs'
  state' : r'.2 = Vfs.new gs'
  inv : Inv fs'
  inv' : Inv' gs'
  tree : SameTree fs' gs'
  reply : ¬ through → SameReply (Twin fs' gs') r.1 r'.1

variable {Inv : F → Prop} {through : F → VfsError} {Room : F → String → Prop}
  {Storable : F → Nat → Nat → Prop} (law : Lawful F Inv through Room Storable)
  {Inv' : G → Prop} {through' : G → VfsError} {Room' : G → String → Prop}
  {Storable' : G → Nat → Nat → Prop} (law' : Lawful G Inv' through' Room' Storable')
  {fs : F} {gs : G} (hfs : Inv fs) (hgs : Inv' gs) (h : SameTree fs gs) {path : String}
  {q : List String} {n : String} {m m' : Metadata}

include hfs hgs h

/-- Two refusals, for one reason. -/
theorem tallies_error {e e' : VfsError} {t : Prop} (heq : ¬ t → e = e') :
    Tallies Inv Inv' t (.error e, Vfs.new fs) (.error e', Vfs.new gs) fs gs :=
  ⟨rfl, rfl, hfs, hgs, h, fun ht => by rw [heq ht]; exact .error e'⟩

include law law'

omit hfs hgs h in
theorem twin_of_pathMap (hm : pathMap fs q = some m) (hm' : pathMap gs q = some m') :
    Twin fs gs m.inode m'.inode :=
  ⟨q, (law.walk_of_pathMap hm).1, (law'.walk_of_pathMap hm').1⟩

/-- The outcomes of creating, side by side. -/
theorem creates_tallies {kind : NodeKind} {r : Except VfsError Nat × F} {r' : Except VfsError Nat × G}
    (hm : pathMap fs q = some m) (hm' : pathMap gs q = some m')
    (hr : Creates Inv Room fs m.inode n kind r) (hr' : Creates Inv' Room' gs m'.inode n kind r')
    (hroom : Room fs n) (hroom' : ∀ x, pathMap fs (q ++ [n]) = none →
      pathMap (Vfs.created r).2 = Function.update (pathMap fs) (q ++ [n]) (some x) → Room' gs n)
    (t : Prop) :
    ∃ fs' gs', Tallies Inv Inv' t ((Vfs.created r).1.map .metadata, Vfs.new (Vfs.created r).2)
      ((Vfs.created r').1.map .metadata, Vfs.new (Vfs.created r').2) fs' gs' := by
  have hfree : (graph fs).child m.inode n = none ↔ (graph gs).child m'.inode n = none := by
    rw [law.child_eq_none hfs hm, law'.child_eq_none hgs hm', h.eq_none]
  cases hr with
  | taken hi =>
    have hsome : (graph gs).child m'.inode n ≠ none := by
      rw [Ne, ← hfree, hi]
      simp
    cases hr' with
    | taken => exact ⟨fs, gs, tallies_error hfs hgs h fun _ => rfl⟩
    | refused hnone => exact absurd hnone hsome
    | linked hnone => exact absurd hnone hsome
  | refused _ hno => exact absurd hroom hno
  | @linked i fs' hnone hdead _ hinv hroot hgraph =>
    have hnone' := hfree.mp hnone
    obtain ⟨hmap, hwalk, hnew⟩ := law.pathMap_link hfs hm hnone hdead hroot hgraph
    cases hr' with
    | taken hj =>
      rw [hnone'] at hj
      cases hj
    | refused _ hno => exact absurd (hroom' _ ((law.child_eq_none hfs hm).mp hnone) hmap) hno
    | @linked j gs' _ hdead' _ hinv' hroot' hgraph' =>
      obtain ⟨hmap', hwalk', hnew'⟩ := law'.pathMap_link hgs hm' hnone' hdead' hroot' hgraph'
      refine ⟨fs', gs', rfl, rfl, hinv, hinv', h.update ?_ hmap hmap', fun _ => ?_⟩
      · rfl
      show SameReply _ ((FileSystem.metadata fs' i).map _) ((FileSystem.metadata gs' j).map _)
      rw [hnew, hnew']
      exact .metadata ⟨⟨_, hwalk, hwalk'⟩, rfl⟩

/-- The outcomes of removing, side by side. -/
theorem removes_tallies {r : Except VfsError Unit × F} {r' : Except VfsError Unit × G}
    (hm : pathMap fs q = some m) (hm' : pathMap gs q = some m')
    (hr : Removes Inv fs m.inode n r) (hr' : Removes Inv' gs m'.inode n r') (t : Prop) :
    ∃ fs' gs', Tallies Inv Inv' t (r.1.map fun _ => .done, Vfs.new r.2)
      (r'.1.map fun _ => .done, Vfs.new r'.2) fs' gs' := by
  have hfree : (graph fs).child m.inode n = none ↔ (graph gs).child m'.inode n = none := by
    rw [law.child_eq_none hfs hm, law'.child_eq_none hgs hm', h.eq_none]
  have hleaf : ∀ {i j}, (graph fs).child m.inode n = some i → (graph gs).child m'.inode n = some j →
      ∀ s, (graph fs).child i s = none ↔ (graph gs).child j s = none := by
    intro i j hi hj s
    rw [law.below_eq_none hfs hm hi, law'.below_eq_none hgs hm' hj, h.eq_none]
  cases hr with
  | missing hnone =>
    have hnone' := hfree.mp hnone
    cases hr' with
    | missing => exact ⟨fs, gs, tallies_error hfs hgs h fun _ => rfl⟩
    | notEmpty hj =>
      rw [hnone'] at hj
      cases hj
    | unlinked hj =>
      rw [hnone'] at hj
      cases hj
  | @notEmpty i s hi hs =>
    have hsome : (graph gs).child m'.inode n ≠ none := by
      rw [Ne, ← hfree, hi]
      simp
    cases hr' with
    | missing hnone => exact absurd hnone hsome
    | notEmpty => exact ⟨fs, gs, tallies_error hfs hgs h fun _ => rfl⟩
    | unlinked hj hempty => exact absurd ((hleaf hi hj s).mpr (hempty s)) hs
  | @unlinked i fs' hi hempty hinv hroot hgraph =>
    have hsome : (graph gs).child m'.inode n ≠ none := by
      rw [Ne, ← hfree, hi]
      simp
    cases hr' with
    | missing hnone => exact absurd hnone hsome
    | @notEmpty j s hj hs => exact absurd ((hleaf hi hj s).mp (hempty s)) hs
    | @unlinked j gs' hj hempty' hinv' hroot' hgraph' =>
      have hmap := law.pathMap_unlink hfs hm hi hempty hroot hgraph
      have hmap' := law'.pathMap_unlink hgs hm' hj hempty' hroot' hgraph'
      exact ⟨fs', gs', rfl, rfl, hinv, hinv', h.update rfl hmap hmap', fun _ => .done⟩

omit hfs hgs in
/-- Two listings of one directory. -/
theorem listings_same {xs xs' : List DirEntry} (hxs : IsListing (fun s => pathMap fs (q ++ [s])) xs)
    (hxs' : IsListing (fun s => pathMap gs (q ++ [s])) xs') :
    List.Forall₂ (SameEntry (Twin fs gs)) xs xs' := by
  -- the second one is the first one with the other metadata
  have hlisting : IsListing (fun s => pathMap gs (q ++ [s]))
      (xs.map fun x => ⟨x.name, (pathMap gs (q ++ [x.name])).getD x.metadata⟩) := by
    refine ⟨?_, fun y => ?_⟩
    · rw [List.pairwise_map]
      exact hxs.sorted
    · rw [List.mem_map]
      constructor
      · rintro ⟨x, hx, rfl⟩
        obtain ⟨x', hx', -⟩ := h.of_some ((hxs.mem x).mp hx)
        simp only [hx', Option.getD_some]
      · intro hy
        obtain ⟨x, hx⟩ : ∃ x, pathMap fs (q ++ [y.name]) = some x := by
          rw [← Option.ne_none_iff_exists', Ne, h.eq_none, hy]
          simp
        refine ⟨⟨y.name, x⟩, (hxs.mem _).mpr hx, ?_⟩
        simp only [hy, Option.getD_some]
  rw [hxs'.unique hlisting, List.forall₂_map_right_iff, List.forall₂_same]
  intro x hx
  have hx' := (hxs.mem x).mp hx
  obtain ⟨y, hy, hface⟩ := h.of_some hx'
  refine ⟨rfl, ?_⟩
  simp only [hy, Option.getD_some]
  exact ⟨twin_of_pathMap law law' hx' hy, hface⟩

omit hfs hgs h in
theorem metadata_tallies (hm : pathMap fs q = some m) (hm' : pathMap gs q = some m')
    (hface : face m = face m') : SameReply (Twin fs gs)
      ((FileSystem.metadata fs m.inode).map .metadata) ((FileSystem.metadata gs m'.inode).map .metadata) := by
  rw [(law.walk_of_pathMap hm).2, (law'.walk_of_pathMap hm').2]
  exact .metadata ⟨twin_of_pathMap law law' hm hm', hface⟩

theorem readDir_tallies (hm : pathMap fs q = some m) (hm' : pathMap gs q = some m')
    (hface : face m = face m') : SameReply (Twin fs gs)
      ((FileSystem.readDir fs m.inode).map .entries) ((FileSystem.readDir gs m'.inode).map .entries) := by
  have hkind : m.kind = m'.kind := congrArg Prod.fst hface
  have hnode := (law.walk_of_pathMap hm).2
  have hnode' := (law'.walk_of_pathMap hm').2
  cases hdir : m.kind with
  | file =>
    rw [law.readDir_file hfs hnode hdir, law'.readDir_file hgs hnode' (hkind ▸ hdir)]
    exact .error _
  | directory =>
    obtain ⟨xs, hread, hxs⟩ := law.readDir hfs hnode hdir
    obtain ⟨xs', hread', hxs'⟩ := law'.readDir hgs hnode' (hkind ▸ hdir)
    rw [law.listing_paths hm] at hxs
    rw [law'.listing_paths hm'] at hxs'
    rw [hread, hread']
    exact .entries (listings_same law law' h hxs hxs')

/-- A call on a name in a directory. -/
theorem parent_tallies {α : Type} {f : α → Reply} {t : Prop}
    {op : F → Nat → String → Except VfsError α × F} {op' : G → Nat → String → Except VfsError α × G}
    (ht : ∀ cs, canonicalPath path = .ok cs → RunsThroughFile fs cs.dropLast → t)
    (hop : ∀ q n m m', canonicalPath path = .ok (q ++ [n]) → pathMap fs q = some m →
      pathMap gs q = some m' → m.kind = .directory → m'.kind = .directory →
      (Vfs.new fs).withParentMut path op = ((op fs m.inode n).1, Vfs.new (op fs m.inode n).2) →
      ∃ fs' gs', Tallies Inv Inv' t ((op fs m.inode n).1.map f, Vfs.new (op fs m.inode n).2)
        ((op' gs m'.inode n).1.map f, Vfs.new (op' gs m'.inode n).2) fs' gs') :
    ∃ fs' gs', Tallies Inv Inv' t
      (((Vfs.new fs).withParentMut path op).1.map f, ((Vfs.new fs).withParentMut path op).2)
      (((Vfs.new gs).withParentMut path op').1.map f, ((Vfs.new gs).withParentMut path op').2)
      fs' gs' := by
  cases hcs : canonicalPath path with
  | error e =>
    rw [Vfs.withParentMut_of_error hcs, Vfs.withParentMut_of_error hcs]
    exact ⟨fs, gs, tallies_error hfs hgs h fun _ => rfl⟩
  | ok cs =>
    rcases List.eq_nil_or_concat cs with rfl | ⟨q, n, rfl⟩
    · rw [Vfs.withParentMut_new_root hcs, Vfs.withParentMut_new_root hcs]
      exact ⟨fs, gs, tallies_error hfs hgs h fun _ => rfl⟩
    · rw [List.concat_eq_append] at hcs
      have hq := (Canonical.append.mp (canonicalPath_canonical hcs)).1
      have hleft : (Vfs.new fs).withParentMut path op = _ := Vfs.withParentMut_new hcs op
      have hright : (Vfs.new gs).withParentMut path op' = _ := Vfs.withParentMut_new hcs op'
      rcases resolveDir_same law law' hfs hgs h hq with
        ⟨e, e', hresolve, hresolve', heq⟩ | ⟨m, m', hm, hm', hdir, hdir', hresolve, hresolve'⟩
      · rw [hresolve] at hleft
        rw [hresolve'] at hright
        rw [hleft, hright]
        refine ⟨fs, gs, tallies_error hfs hgs h fun hnot => heq fun hthrough => hnot (ht _ hcs ?_)⟩
        rwa [List.dropLast_concat]
      · rw [hresolve] at hleft
        rw [hresolve'] at hright
        have hsame := hop q n m m' hcs hm hm' hdir hdir' hleft
        rwa [hleft, hright]

/-- A call that looks at a node. -/
theorem inode_tallies {α : Type} {f : α → Reply} {t : Prop} {op : F → Nat → Except VfsError α}
    {op' : G → Nat → Except VfsError α}
    (ht : ∀ cs, canonicalPath path = .ok cs → RunsThroughFile fs cs → t)
    (hop : ∀ q m m', pathMap fs q = some m → pathMap gs q = some m' → face m = face m' →
      SameReply (Twin fs gs) ((op fs m.inode).map f) ((op' gs m'.inode).map f)) :
    Tallies Inv Inv' t (((Vfs.new fs).withInode path op).map f, Vfs.new fs)
      (((Vfs.new gs).withInode path op').map f, Vfs.new gs) fs gs := by
  refine ⟨rfl, rfl, hfs, hgs, h, fun hnot => ?_⟩
  cases hcs : canonicalPath path with
  | error e =>
    rw [Vfs.withInode_of_error hcs, Vfs.withInode_of_error hcs]
    exact .error e
  | ok cs =>
    rw [Vfs.withInode_new hcs, Vfs.withInode_new hcs]
    rcases resolve_same law law' hfs hgs h (canonicalPath_canonical hcs) with
      ⟨e, e', hresolve, hresolve', heq⟩ | ⟨m, m', hm, hm', hface, hresolve, hresolve'⟩
    · rw [hresolve, hresolve', heq fun hthrough => hnot (ht cs hcs hthrough)]
      exact .error e'
    · rw [hresolve, hresolve']
      exact hop cs m m' hm hm' hface

/-- **One call of the namespace**, on two backends with the same tree. A node that the first one
makes has to find its place in the second one. -/
theorem namespace_step (c : Call) (hc : c.IsNamespace)
    (hroom : c.Creates → ∀ q n, canonicalPath c.path = .ok (q ++ [n]) → Room fs n ∧
      ∀ fs' x, ((Vfs.new fs).call c).2 = Vfs.new fs' → pathMap fs (q ++ [n]) = none →
        pathMap fs' = Function.update (pathMap fs) (q ++ [n]) (some x) → Room' gs n) :
    ∃ fs' gs', Tallies Inv Inv'
      (∃ cs, canonicalPath c.path = .ok cs ∧ RunsThroughFile fs (c.resolved cs))
      ((Vfs.new fs).call c) ((Vfs.new gs).call c) fs' gs' := by
  cases c with
  | createFile path =>
    refine parent_tallies law law' hfs hgs h (fun cs hcs hthrough => ⟨cs, hcs, hthrough⟩)
      fun q n m m' hcs hm hm' hdir hdir' hleft => ?_
    obtain ⟨hfirst, hsecond⟩ := hroom trivial q n hcs
    have hn : ValidName n := canonicalPath_canonical hcs n (by simp)
    exact creates_tallies law law' hfs hgs h hm hm'
      (law.createFile hfs hn (law.walk_of_pathMap hm).2 hdir)
      (law'.createFile hgs hn (law'.walk_of_pathMap hm').2 hdir') hfirst
      (fun x => hsecond _ x (congrArg Prod.snd hleft)) _
  | createDir path =>
    refine parent_tallies law law' hfs hgs h (fun cs hcs hthrough => ⟨cs, hcs, hthrough⟩)
      fun q n m m' hcs hm hm' hdir hdir' hleft => ?_
    obtain ⟨hfirst, hsecond⟩ := hroom trivial q n hcs
    have hn : ValidName n := canonicalPath_canonical hcs n (by simp)
    exact creates_tallies law law' hfs hgs h hm hm'
      (law.createDir hfs hn (law.walk_of_pathMap hm).2 hdir)
      (law'.createDir hgs hn (law'.walk_of_pathMap hm').2 hdir') hfirst
      (fun x => hsecond _ x (congrArg Prod.snd hleft)) _
  | remove path =>
    refine parent_tallies law law' hfs hgs h (fun cs hcs hthrough => ⟨cs, hcs, hthrough⟩)
      fun q n m m' hcs hm hm' hdir hdir' _ => ?_
    have hn : ValidName n := canonicalPath_canonical hcs n (by simp)
    exact removes_tallies law law' hfs hgs h hm hm'
      (law.remove hfs hn (law.walk_of_pathMap hm).2 hdir)
      (law'.remove hgs hn (law'.walk_of_pathMap hm').2 hdir') _
  | metadata path =>
    exact ⟨fs, gs, inode_tallies law law' hfs hgs h (fun cs hcs hthrough => ⟨cs, hcs, hthrough⟩)
      fun q m m' hm hm' hface => metadata_tallies law law' hm hm' hface⟩
  | readDir path =>
    exact ⟨fs, gs, inode_tallies law law' hfs hgs h (fun cs hcs hthrough => ⟨cs, hcs, hthrough⟩)
      fun q m m' hm hm' hface => readDir_tallies law law' hfs hgs h hm hm' hface⟩
  | write => exact hc.elim
  | truncate => exact hc.elim
  | read => exact hc.elim
  | readAll => exact hc.elim

end Step

end GenericKernel.VfsCore
