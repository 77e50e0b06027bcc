import GenericKernel.Lib.NodeTree
import GenericKernel.Lib.Word
import GenericKernel.Vfs.Vfs

/-!
# What a backend owes the VFS

* `graph` — the nodes of a backend as `lookup` and `metadata` show them; `pathMap` — the metadata
  they give each path.
* `Lawful` — the namespace methods of a backend keep a tree: what `create`, `remove`, `write` and
  `truncate` do to the graph, and which errors they return.
* `Lawful.resolve_eq` and the lemmas after it — what the operations of a `Vfs` then do to the path
  map, for a path given by its components.
-/

namespace GenericKernel.VfsCore

open GenericKernel.Lib

variable {F : Type} [FileSystem F]

def graph (fs : F) : NodeGraph Nat String Metadata where
  child parent name := (FileSystem.lookup fs parent name).toOption
  info inode := (FileSystem.metadata fs inode).toOption

/-- The metadata at the end of each path. -/
def pathMap (fs : F) : List String → Option Metadata :=
  (graph fs).entry (FileSystem.rootInode fs)

theorem toOption_eq_some {ε α : Type} {x : Except ε α} {a : α} : x.toOption = some a ↔ x = .ok a := by
  cases x <;> simp [Except.toOption]

theorem toOption_eq_none {ε α : Type} {x : Except ε α} : x.toOption = none ↔ ∃ e, x = .error e := by
  cases x <;> simp [Except.toOption]

/-- Strings are ordered by their bytes. -/
instance : Std.TransCmp compareNames :=
  inferInstanceAs (Std.TransCmp (compareOn nameBytes))

instance : Std.LawfulEqCmp compareNames where
  eq_of_compare {left right} h := by
    have hbytes : nameBytes left = nameBytes right := Std.LawfulEqOrd.eq_of_compare h
    have hdata : left.toByteArray.data = right.toByteArray.data := Array.ext' hbytes
    exact String.toByteArray_inj.mp (ByteArray.ext hdata)

/-- A directory listing: the children with their metadata, in the order of their names. -/
structure IsListing (children : String → Option Metadata) (entries : List DirEntry) : Prop where
  sorted : entries.Pairwise fun left right => compareNames left.name right.name = .lt
  mem : ∀ x, x ∈ entries ↔ children x.name = some x.metadata

/-- A directory has one listing. -/
theorem IsListing.unique {children : String → Option Metadata} {entries entries' : List DirEntry}
    (h : IsListing children entries) (h' : IsListing children entries') : entries = entries' := by
  have hnodup : ∀ {xs : List DirEntry}, IsListing children xs → xs.Nodup := fun hxs =>
    hxs.sorted.imp fun {left right} hlt heq => by
      rw [heq, @Std.ReflCmp.compare_self _ compareNames] at hlt
      cases hlt
  have hperm : entries.Perm entries' :=
    (List.perm_ext_iff_of_nodup (hnodup h) (hnodup h')).mpr fun x => by rw [h.mem, h'.mem]
  refine hperm.eq_of_pairwise (fun left right _ _ hlt hgt => ?_) h.sorted h'.sorted
  rw [@Std.OrientedCmp.eq_swap _ compareNames, hgt] at hlt
  cases hlt

/-- What `create_file` and `create_dir` may do; `Room` says when a new node finds its place. -/
inductive Creates (Inv : F → Prop) (Room : F → String → Prop) (fs : F) (parent : Nat)
    (name : String) (kind : NodeKind) : Except VfsError Nat × F → Prop
  | taken {i : Nat} : (graph fs).child parent name = some i →
      Creates Inv Room fs parent name kind (.error .alreadyExists, fs)
  | refused {e : VfsError} : (graph fs).child parent name = none → ¬ Room fs name →
      Creates Inv Room fs parent name kind (.error e, fs)
  | linked {i : Nat} {fs' : F} : (graph fs).child parent name = none → (graph fs).info i = none →
      Room fs name → Inv fs' → FileSystem.rootInode fs' = FileSystem.rootInode fs →
      graph fs' = (graph fs).link parent name i ⟨i, kind, 0⟩ →
      Creates Inv Room fs parent name kind (.ok i, fs')

/-- What `remove` may do. -/
inductive Removes (Inv : F → Prop) (fs : F) (parent : Nat) (name : String) :
    Except VfsError Unit × F → Prop
  | missing : (graph fs).child parent name = none →
      Removes Inv fs parent name (.error .notFound, fs)
  | notEmpty {i : Nat} {m : String} : (graph fs).child parent name = some i →
      (graph fs).child i m ≠ none → Removes Inv fs parent name (.error .directoryNotEmpty, fs)
  | unlinked {i : Nat} {fs' : F} : (graph fs).child parent name = some i →
      (∀ m, (graph fs).child i m = none) → Inv fs' →
      FileSystem.rootInode fs' = FileSystem.rootInode fs →
      graph fs' = (graph fs).unlink parent name i → Removes Inv fs parent name (.ok (), fs')

/-- Names and kinds as before. -/
structure SameNames (fs fs' : F) : Prop where
  root : FileSystem.rootInode fs' = FileSystem.rootInode fs
  child : (graph fs').child = (graph fs).child
  kind : ∀ i, ((graph fs').info i).map Metadata.kind = ((graph fs).info i).map Metadata.kind

/-- The namespace of a backend in the states `Inv`. A lookup in a file fails with `through`;
`Storable fs inode stop` says that contents up to byte `stop` may be stored in a file. -/
structure Lawful (F : Type) [FileSystem F] (Inv : F → Prop) (through : F → VfsError)
    (Room : F → String → Prop) (Storable : F → Nat → Nat → Prop) : Prop where
  tree {fs : F} : Inv fs → (graph fs).Tree (FileSystem.rootInode fs)
  root {fs : F} : Inv fs →
    ∃ m, FileSystem.metadata fs (FileSystem.rootInode fs) = .ok m ∧ m.kind = .directory
  inode {fs : F} {i : Nat} {m : Metadata} : FileSystem.metadata fs i = .ok m → m.inode = i
  childless {fs : F} {p i : Nat} {n : String} {m : Metadata} : Inv fs →
    FileSystem.metadata fs p = .ok m → m.kind = .file → FileSystem.lookup fs p n ≠ .ok i
  miss {fs : F} {p : Nat} {n : String} {m : Metadata} {e : VfsError} : Inv fs → ValidName n →
    FileSystem.metadata fs p = .ok m → FileSystem.lookup fs p n = .error e →
    e = if m.kind = .file then through fs else .notFound
  readDir_file {fs : F} {p : Nat} {m : Metadata} : Inv fs →
    FileSystem.metadata fs p = .ok m → m.kind = .file →
    FileSystem.readDir fs p = .error .notDirectory
  readDir {fs : F} {p : Nat} {m : Metadata} : Inv fs → FileSystem.metadata fs p = .ok m →
    m.kind = .directory → ∃ entries, FileSystem.readDir fs p = .ok entries ∧
      IsListing (fun n => ((graph fs).child p n).bind (graph fs).info) entries
  createFile {fs : F} {p : Nat} {n : String} {m : Metadata} : Inv fs → ValidName n →
    FileSystem.metadata fs p = .ok m → m.kind = .directory →
    Creates Inv Room fs p n .file (FileSystem.createFile fs p n)
  createDir {fs : F} {p : Nat} {n : String} {m : Metadata} : Inv fs → ValidName n →
    FileSystem.metadata fs p = .ok m → m.kind = .directory →
    Creates Inv Room fs p n .directory (FileSystem.createDir fs p n)
  remove {fs : F} {p : Nat} {n : String} {m : Metadata} : Inv fs → ValidName n →
    FileSystem.metadata fs p = .ok m → m.kind = .directory →
    Removes Inv fs p n (FileSystem.remove fs p n)
  write {fs : F} {i offset : Nat} {data : List UInt8} : Inv fs → offset < wordSize →
    data.length < 2 ^ 63 → Storable fs i (offset + data.length) →
    Inv (FileSystem.write fs i offset data).2 ∧ SameNames fs (FileSystem.write fs i offset data).2
  truncate {fs : F} {i len : Nat} : Inv fs → len < wordSize → Storable fs i len →
    Inv (FileSystem.truncate fs i len).2 ∧ SameNames fs (FileSystem.truncate fs i len).2

/-- A path that cannot be walked: one of the nodes on it is a file, or a name is missing. -/
def missError (through : VfsError) (map : List String → Option Metadata) (path : List String) :
    VfsError :=
  if path.inits.any fun q => (map q).any fun m => m.kind = .file then through else .notFound

namespace Lawful

variable {Inv : F → Prop} {through : F → VfsError} {Room : F → String → Prop}
  {Storable : F → Nat → Nat → Prop} (law : Lawful F Inv through Room Storable)
  {fs : F} {path : List String}

theorem resolve_concat (fs : F) (path : List String) (n : String) :
    resolve fs (path ++ [n]) = resolve fs path >>= fun i => FileSystem.lookup fs i n := by
  unfold resolve
  rw [List.foldlM_append]
  congr 1
  funext i
  simp

/-- Resolving walks the graph. -/
theorem resolve_toOption (fs : F) (path : List String) :
    (resolve fs path).toOption = (graph fs).walk (FileSystem.rootInode fs) path := by
  induction path using List.reverseRecOn with
  | nil => rfl
  | append_singleton path n ih =>
    rw [resolve_concat, NodeGraph.walk_concat, ← ih]
    cases resolve fs path <;> rfl

include law

/-- The same contract for fewer requests. -/
theorem restrict {Storable' : F → Nat → Nat → Prop}
    (h : ∀ fs i stop, Storable' fs i stop → Storable fs i stop) :
    Lawful F Inv through Room Storable' :=
  { law with
    write := fun hinv hoffset hdata hstop => law.write hinv hoffset hdata (h _ _ _ hstop)
    truncate := fun hinv hlen hstop => law.truncate hinv hlen (h _ _ _ hstop) }

theorem metadata_of_walk {i : Nat} (hinv : Inv fs)
    (hwalk : (graph fs).walk (FileSystem.rootInode fs) path = some i) :
    ∃ m, FileSystem.metadata fs i = .ok m ∧ m.inode = i ∧ pathMap fs path = some m := by
  have hlive := (law.tree hinv).live_walk hwalk
  obtain ⟨m, hm⟩ := Option.isSome_iff_exists.mp hlive
  refine ⟨m, toOption_eq_some.mp hm, law.inode (toOption_eq_some.mp hm), ?_⟩
  rw [pathMap, NodeGraph.entry_of_walk hwalk, hm]

/-- A file has nothing below it. -/
theorem pathMap_below_file {m : Metadata} {n : String} (hinv : Inv fs)
    (hm : pathMap fs path = some m) (hkind : m.kind = .file) : pathMap fs (path ++ [n]) = none := by
  rw [pathMap, NodeGraph.entry, Option.bind_eq_some_iff] at hm
  obtain ⟨i, hwalk, hi⟩ := hm
  rw [pathMap, NodeGraph.entry_concat hwalk]
  cases hchild : (graph fs).child i n with
  | none => rfl
  | some j =>
    exact absurd (toOption_eq_some.mp hchild) (law.childless hinv (toOption_eq_some.mp hi) hkind)

/-- The nodes above an entry are directories. -/
theorem directory_above {rest : List String} (hinv : Inv fs) (hne : rest ≠ [])
    (hentry : pathMap fs (path ++ rest) ≠ none) :
    ∃ m, pathMap fs path = some m ∧ m.kind = .directory := by
  cases rest with
  | nil => exact absurd rfl hne
  | cons n rest =>
    rw [show path ++ n :: rest = path ++ [n] ++ rest by simp] at hentry
    have hchild := (law.tree hinv).entry_of_append hentry
    obtain ⟨m, hm⟩ := Option.ne_none_iff_exists'.mp ((law.tree hinv).entry_of_append hchild)
    refine ⟨m, hm, ?_⟩
    cases hkind : m.kind with
    | directory => rfl
    | file => exact absurd (law.pathMap_below_file hinv hm hkind) hchild

theorem missError_concat {n : String} {m : Metadata} (hinv : Inv fs)
    (hm : pathMap fs path = some m) (hnone : pathMap fs (path ++ [n]) = none) (t : VfsError) :
    missError t (pathMap fs) (path ++ [n]) = if m.kind = .file then t else .notFound := by
  unfold missError
  by_cases hkind : m.kind = .file
  · rw [if_pos hkind, if_pos]
    rw [List.any_eq_true]
    refine ⟨path, (List.mem_inits _ _).mpr (List.prefix_append _ _), ?_⟩
    simp [hm, hkind]
  · rw [if_neg hkind, if_neg]
    rw [List.any_eq_true]
    rintro ⟨q, hq, hfile⟩
    obtain ⟨rest, hrest⟩ := (List.mem_inits _ _).mp hq
    obtain ⟨x, hx, hxkind⟩ : ∃ x, pathMap fs q = some x ∧ x.kind = .file := by
      cases hx : pathMap fs q with
      | none => simp [hx] at hfile
      | some x => exact ⟨x, rfl, by simpa [hx] using hfile⟩
    -- the whole path has no entry, `path` is a directory, and so is everything above it
    induction rest using List.reverseRecOn with
    | nil =>
      rw [List.append_nil] at hrest
      rw [hrest, hnone] at hx
      cases hx
    | append_singleton rest n' _ =>
      rw [← List.append_assoc] at hrest
      obtain ⟨rfl, -⟩ := List.append_inj' hrest rfl
      by_cases hrest : rest = []
      · rw [hrest, List.append_nil, hx] at hm
        exact hkind (Option.some.inj hm ▸ hxkind)
      · have hentry : pathMap fs (q ++ rest) ≠ none := by rw [hm]; simp
        obtain ⟨x', hx', hdir⟩ := law.directory_above hinv hrest hentry
        rw [hx] at hx'
        rw [Option.some.inj hx', hdir] at hxkind
        cases hxkind

theorem missError_of_missing {n : String} (hinv : Inv fs) (hnone : pathMap fs path = none)
    (t : VfsError) : missError t (pathMap fs) (path ++ [n]) = missError t (pathMap fs) path := by
  have hbelow : pathMap fs (path ++ [n]) = none := by
    by_contra hne
    exact (law.tree hinv).entry_of_append hne hnone
  have hany : ((path ++ [n]).inits.any fun q => (pathMap fs q).any fun m => m.kind = .file) =
      path.inits.any fun q => (pathMap fs q).any fun m => m.kind = .file := by
    rw [Bool.eq_iff_iff, List.any_eq_true, List.any_eq_true]
    constructor
    · rintro ⟨q, hq, hfile⟩
      refine ⟨q, ?_, hfile⟩
      rw [List.mem_inits] at hq ⊢
      rcases List.prefix_concat_iff.mp hq with rfl | hpre
      · simp [hbelow] at hfile
      · exact hpre
    · rintro ⟨q, hq, hfile⟩
      exact ⟨q, (List.mem_inits _ _).mpr (((List.mem_inits _ _).mp hq).trans (List.prefix_append _ _)), hfile⟩
  unfold missError
  rw [hany]

/-- **Resolving a path**: its entry's inode, or the error of the first obstacle. -/
theorem resolve_eq (hinv : Inv fs) (hpath : Canonical path) :
    resolve fs path =
      match pathMap fs path with
      | some m => .ok m.inode
      | none => .error (missError (through fs) (pathMap fs) path) := by
  induction path using List.reverseRecOn with
  | nil =>
    have hwalk : (graph fs).walk (FileSystem.rootInode fs) [] = some (FileSystem.rootInode fs) := rfl
    obtain ⟨m, hm, hinode, hmap⟩ := law.metadata_of_walk hinv hwalk
    rw [hmap]
    exact congrArg Except.ok hinode.symm
  | append_singleton path n ih =>
    obtain ⟨hpath', hn⟩ := Canonical.append.mp hpath
    have hvalid := hn n (List.mem_singleton.mpr rfl)
    rw [resolve_concat, ih hpath']
    cases hm : pathMap fs path with
    | none =>
      have hbelow : pathMap fs (path ++ [n]) = none := by
        by_contra hne
        exact (law.tree hinv).entry_of_append hne hm
      rw [hbelow, law.missError_of_missing hinv hm]
      rfl
    | some m =>
      have hwalk : (graph fs).walk (FileSystem.rootInode fs) path = some m.inode := by
        rw [← resolve_toOption, ih hpath', hm]
        rfl
      obtain ⟨m', hm', -, hmap⟩ := law.metadata_of_walk hinv hwalk
      obtain rfl : m = m' := by rw [hm] at hmap; exact Option.some.inj hmap
      show FileSystem.lookup fs m.inode n = _
      cases hlookup : FileSystem.lookup fs m.inode n with
      | ok i =>
        have hstep : (graph fs).walk (FileSystem.rootInode fs) (path ++ [n]) = some i := by
          rw [NodeGraph.walk_concat, hwalk]
          exact toOption_eq_some.mpr hlookup
        obtain ⟨x, -, hinode, hx⟩ := law.metadata_of_walk hinv hstep
        rw [hx]
        exact congrArg Except.ok hinode.symm
      | error e =>
        have hbelow : pathMap fs (path ++ [n]) = none := by
          rw [pathMap, NodeGraph.entry_concat hwalk, show (graph fs).child m.inode n = none from
            toOption_eq_none.mpr ⟨e, hlookup⟩]
          rfl
        rw [hbelow, law.missError_concat hinv hm hbelow]
        exact congrArg Except.error (law.miss hinv hvalid hm' hlookup)

/-- The inode of a path with an entry. -/
theorem walk_of_pathMap {m : Metadata} (hm : pathMap fs path = some m) :
    (graph fs).walk (FileSystem.rootInode fs) path = some m.inode ∧
      FileSystem.metadata fs m.inode = .ok m := by
  rw [pathMap, NodeGraph.entry, Option.bind_eq_some_iff] at hm
  obtain ⟨i, hwalk, hi⟩ := hm
  have hi' : FileSystem.metadata fs i = .ok m := toOption_eq_some.mp hi
  rw [law.inode hi']
  exact ⟨hwalk, hi'⟩

/-- The directory of an operation on a name. -/
theorem resolveDir_eq (hinv : Inv fs) (hpath : Canonical path) :
    resolveDir fs path =
      match pathMap fs path with
      | some m => if m.kind = .directory then .ok m.inode else .error .notDirectory
      | none => .error (missError (through fs) (pathMap fs) path) := by
  unfold resolveDir
  rw [law.resolve_eq hinv hpath]
  cases hm : pathMap fs path with
  | none => rfl
  | some m =>
    show (FileSystem.metadata fs m.inode >>= fun metadata => _) = _
    rw [(law.walk_of_pathMap hm).2]
    show (if m.kind ≠ .directory then _ else _) = if m.kind = .directory then _ else _
    by_cases hkind : m.kind = .directory
    · rw [if_neg (not_not.mpr hkind), if_pos hkind]
    · rw [if_pos hkind, if_neg hkind]

end Lawful

end GenericKernel.VfsCore
