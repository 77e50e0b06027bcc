import Mathlib.Data.List.FinRange
import GenericKernel.Vfs.Path

/-!
# The mount layer (`crates/kernel-core/src/vfs.rs`)

`FileSystem` is the backend contract; `Vfs` keeps the mounted backends and finds the one that a
path belongs to. A method that takes `&mut self` returns the new value next to its result, and
`read` returns the bytes it copies into a buffer of the given length.

Every operation of `Vfs` normalises its path, routes it, resolves it to an inode or to a parent
and a name, and calls the backend: `withInode`, `withInodeMut` and `withParentMut` are that frame.
`andThen` is for the functions that make one call after another.
-/

namespace GenericKernel.VfsCore

class FileSystem (F : Type) where
  name : F → String
  rootInode : F → Nat
  metadata : F → Nat → Except VfsError Metadata
  lookup : F → Nat → String → Except VfsError Nat
  readDir : F → Nat → Except VfsError (List DirEntry)
  createFile : F → Nat → String → Except VfsError Nat × F
  createDir : F → Nat → String → Except VfsError Nat × F
  read : F → Nat → Nat → Nat → Except VfsError (List UInt8)
  write : F → Nat → Nat → List UInt8 → Except VfsError Nat × F
  truncate : F → Nat → Nat → Except VfsError Unit × F
  remove : F → Nat → String → Except VfsError Unit × F

section Resolve

variable {F : Type} [FileSystem F]

def resolveInode (filesystem : F) (path : String) : Except VfsError Nat :=
  let inode := FileSystem.rootInode filesystem
  if path = "/" then .ok inode
  else (pathParts path).foldlM (FileSystem.lookup filesystem) inode

def resolveParent (filesystem : F) (path : String) : Except VfsError (Nat × String) :=
  if path = "/" then .error .rootImmutable
  else
    match rsplitSlash path with
    | none => .error .invalidPath
    | some (parentPath, name) => do
      validateName name
      let parentPath := if parentPath = "" then "/" else parentPath
      let parent ← resolveInode filesystem parentPath
      let metadata ← FileSystem.metadata filesystem parent
      if metadata.kind ≠ .directory then .error .notDirectory else .ok (parent, name)

end Resolve

structure Mount (F : Type) where
  path : String
  filesystem : F

/-- `mounts[0]` is the root filesystem. -/
structure Vfs (F : Type) where
  mounts : List (Mount F)
  nonempty : 0 < mounts.length

structure MountInfo where
  path : String
  filesystem : String

namespace Vfs

variable {F α : Type}

def new (root : F) : Vfs F := ⟨[⟨"/", root⟩], Nat.zero_lt_one⟩

/-- The root filesystem. -/
def root (v : Vfs F) : F := (v.mounts.get ⟨0, v.nonempty⟩).filesystem

/-- `path.strip_prefix(mount_path).is_some_and(|rest| rest.starts_with('/'))`. -/
def isNested (path mountPath : String) : Prop :=
  mountPath.toList <+: path.toList ∧ (path.toList.drop mountPath.toList.length).head? = some '/'

instance (path mountPath : String) : Decidable (isNested path mountPath) := by
  unfold isNested; infer_instance

/-- One round of the loop of `route`. -/
def better (v : Vfs F) (path : String) (best : Fin v.mounts.length × Nat)
    (index : Fin v.mounts.length) : Fin v.mounts.length × Nat :=
  let mountPath := (getElem v.mounts index index.isLt).path
  if (path = mountPath ∨ isNested path mountPath) ∧ best.2 < (nameBytes mountPath).length then
    (index, (nameBytes mountPath).length)
  else best

/-- The loop of `route` looks at the mounts after the first and keeps the longest match. -/
def bestMount (v : Vfs F) (path : String) : Fin v.mounts.length × Nat :=
  ((List.finRange v.mounts.length).drop 1).foldl (v.better path) (⟨0, v.nonempty⟩, 1)

def route (v : Vfs F) (path : String) : Fin v.mounts.length × String :=
  let bestIndex := (v.bestMount path).1
  let mountPath := (getElem v.mounts bestIndex bestIndex.isLt).path
  if mountPath = "/" then (bestIndex, path)
  else
    -- the mount path is a prefix, so slicing off its bytes drops its characters
    let rest := path.toList.drop mountPath.toList.length
    (bestIndex, if rest = [] then "/" else String.ofList rest)

/-- An operation of the backend `index`. -/
def onMount (v : Vfs F) (index : Fin v.mounts.length) (op : F → α × F) : α × Vfs F :=
  let mount := getElem v.mounts index index.isLt
  ((op mount.filesystem).1,
    ⟨v.mounts.set index { mount with filesystem := (op mount.filesystem).2 }, by
      rw [List.length_set]; exact v.nonempty⟩)

variable [FileSystem F]

def withInode (v : Vfs F) (path : String) (op : F → Nat → Except VfsError α) :
    Except VfsError α := do
  let path ← normalizePath "/" path
  let (index, relative) := v.route path
  let filesystem := (getElem v.mounts index index.isLt).filesystem
  let inode ← resolveInode filesystem relative
  op filesystem inode

def withInodeMut (v : Vfs F) (path : String) (op : F → Nat → Except VfsError α × F) :
    Except VfsError α × Vfs F :=
  match normalizePath "/" path with
  | .error e => (.error e, v)
  | .ok path =>
    let (index, relative) := v.route path
    match resolveInode (getElem v.mounts index index.isLt).filesystem relative with
    | .error e => (.error e, v)
    | .ok inode => v.onMount index fun filesystem => op filesystem inode

def withParentMut (v : Vfs F) (path : String) (op : F → Nat → String → Except VfsError α × F) :
    Except VfsError α × Vfs F :=
  match normalizePath "/" path with
  | .error e => (.error e, v)
  | .ok path =>
    let (index, relative) := v.route path
    match resolveParent (getElem v.mounts index index.isLt).filesystem relative with
    | .error e => (.error e, v)
    | .ok (parent, name) => v.onMount index fun filesystem => op filesystem parent name

def metadata (v : Vfs F) (path : String) : Except VfsError Metadata :=
  v.withInode path FileSystem.metadata

def readDir (v : Vfs F) (path : String) : Except VfsError (List DirEntry) :=
  v.withInode path FileSystem.readDir

def read (v : Vfs F) (path : String) (offset bufferLen : Nat) : Except VfsError (List UInt8) :=
  v.withInode path fun filesystem inode => FileSystem.read filesystem inode offset bufferLen

def readAll (v : Vfs F) (path : String) : Except VfsError (List UInt8) := do
  let metadata ← v.metadata path
  if metadata.kind = .directory then .error .isDirectory else v.read path 0 metadata.len

/-- The new inode's metadata, as both `create_file` and `create_dir` return it. -/
def created (result : Except VfsError Nat × F) : Except VfsError Metadata × F :=
  match result with
  | (.error e, filesystem) => (.error e, filesystem)
  | (.ok inode, filesystem) => (FileSystem.metadata filesystem inode, filesystem)

def createFile (v : Vfs F) (path : String) : Except VfsError Metadata × Vfs F :=
  v.withParentMut path fun filesystem parent name =>
    created (FileSystem.createFile filesystem parent name)

def createDir (v : Vfs F) (path : String) : Except VfsError Metadata × Vfs F :=
  v.withParentMut path fun filesystem parent name =>
    created (FileSystem.createDir filesystem parent name)

def remove (v : Vfs F) (path : String) : Except VfsError Unit × Vfs F :=
  v.withParentMut path FileSystem.remove

def write (v : Vfs F) (path : String) (offset : Nat) (data : List UInt8) :
    Except VfsError Nat × Vfs F :=
  v.withInodeMut path fun filesystem inode => FileSystem.write filesystem inode offset data

def truncate (v : Vfs F) (path : String) (len : Nat) : Except VfsError Unit × Vfs F :=
  v.withInodeMut path fun filesystem inode => FileSystem.truncate filesystem inode len

def mount (v : Vfs F) (path : String) (filesystem : F) : Except VfsError Unit × Vfs F :=
  match normalizePath "/" path with
  | .error e => (.error e, v)
  | .ok path =>
    if path = "/" ∨ v.mounts.any (fun mount => mount.path = path) then (.error .alreadyMounted, v)
    else
      match v.metadata path with
      | .error e => (.error e, v)
      | .ok metadata =>
        if metadata.kind ≠ .directory then (.error .mountPointNotDirectory, v)
        else (.ok (), ⟨v.mounts ++ [⟨path, filesystem⟩], by simp⟩)

/-- `mounts`, sorted by path. -/
def mountInfos (v : Vfs F) : List MountInfo :=
  (v.mounts.map fun mount => ⟨mount.path, FileSystem.name mount.filesystem⟩).mergeSort
    fun left right => nameLe left.path right.path

end Vfs

/-! ## Calls -/

/-- The operations of a `Vfs` on paths. -/
inductive Call where
  | createFile (path : String)
  | createDir (path : String)
  | write (path : String) (offset : Nat) (data : List UInt8)
  | truncate (path : String) (len : Nat)
  | remove (path : String)
  | read (path : String) (offset bufferLen : Nat)
  | readAll (path : String)
  | readDir (path : String)
  | metadata (path : String)

/-- The path an operation is called with. -/
def Call.path : Call → String
  | .createFile path => path
  | .createDir path => path
  | .write path _ _ => path
  | .truncate path _ => path
  | .remove path => path
  | .read path _ _ => path
  | .readAll path => path
  | .readDir path => path
  | .metadata path => path

/-- The calls that make a node. -/
def Call.Creates : Call → Prop
  | .createFile _ => True
  | .createDir _ => True
  | _ => False

/-- What they return. -/
inductive Reply where
  | metadata (value : Metadata)
  | count (value : Nat)
  | done
  | bytes (value : List UInt8)
  | entries (value : List DirEntry)
  deriving DecidableEq

def Vfs.call {F : Type} [FileSystem F] (v : Vfs F) : Call → Except VfsError Reply × Vfs F
  | .createFile path => ((v.createFile path).1.map .metadata, (v.createFile path).2)
  | .createDir path => ((v.createDir path).1.map .metadata, (v.createDir path).2)
  | .write path offset data =>
    ((v.write path offset data).1.map .count, (v.write path offset data).2)
  | .truncate path len => ((v.truncate path len).1.map fun _ => .done, (v.truncate path len).2)
  | .remove path => ((v.remove path).1.map fun _ => .done, (v.remove path).2)
  | .read path offset bufferLen => ((v.read path offset bufferLen).map .bytes, v)
  | .readAll path => ((v.readAll path).map .bytes, v)
  | .readDir path => ((v.readDir path).map .entries, v)
  | .metadata path => ((v.metadata path).map .metadata, v)

/-! ## Resolving components -/

section Components

variable {F α : Type} [FileSystem F]

/-- `resolve_inode` on components. -/
def resolve (filesystem : F) (components : List String) : Except VfsError Nat :=
  components.foldlM (FileSystem.lookup filesystem) (FileSystem.rootInode filesystem)

theorem resolveInode_joinPath (filesystem : F) {cs : List String} (h : Canonical cs) :
    resolveInode filesystem (joinPath cs) = resolve filesystem cs := by
  unfold resolveInode
  by_cases hnil : cs = []
  · subst hnil
    rw [if_pos joinPath_nil]
    rfl
  · rw [if_neg (fun heq => hnil ((joinPath_eq_slash h).mp heq)), pathParts_joinPath h hnil]
    rfl

/-- The directory that an operation on the name of a new or old node works in. -/
def resolveDir (filesystem : F) (components : List String) : Except VfsError Nat := do
  let parent ← resolve filesystem components
  let metadata ← FileSystem.metadata filesystem parent
  if metadata.kind ≠ .directory then .error .notDirectory else .ok parent

theorem resolveParent_root (filesystem : F) :
    resolveParent filesystem (joinPath []) = .error .rootImmutable :=
  if_pos joinPath_nil

theorem resolveParent_joinPath (filesystem : F) {cs : List String} {name : String}
    (h : Canonical (cs ++ [name])) :
    resolveParent filesystem (joinPath (cs ++ [name])) =
      (resolveDir filesystem cs).map fun parent => (parent, name) := by
  obtain ⟨hcs, hname⟩ := Canonical.append.mp h
  have hvalid : validateName name = .ok () := hname name (List.mem_singleton.mpr rfl)
  have hparent : (if String.ofList (pathChars cs) = "" then "/" else String.ofList (pathChars cs)) =
      joinPath cs := by
    by_cases hnil : cs = []
    · subst hnil
      exact joinPath_nil.symm
    · have hchars := toList_joinPath hnil
      have hjoin : String.ofList (pathChars cs) = joinPath cs := by
        rw [← hchars, String.ofList_toList]
      rw [hjoin, if_neg]
      intro hempty
      rw [hempty] at hchars
      cases cs with
      | nil => exact hnil rfl
      | cons name cs => simp [pathChars] at hchars
  unfold resolveParent resolveDir
  rw [if_neg (fun heq => by simpa using (joinPath_eq_slash h).mp heq), rsplitSlash_joinPath h]
  show ((validateName name) >>= fun _ => _) = _
  rw [hvalid, hparent]
  show (resolveInode filesystem (joinPath cs) >>= fun parent =>
    FileSystem.metadata filesystem parent >>= fun metadata =>
      if metadata.kind ≠ .directory then .error .notDirectory else .ok (parent, name)) = _
  rw [resolveInode_joinPath filesystem hcs]
  cases resolve filesystem cs with
  | error e => rfl
  | ok parent =>
    show (FileSystem.metadata filesystem parent >>= fun metadata => _) =
      Except.map _ (FileSystem.metadata filesystem parent >>= fun metadata => _)
    cases FileSystem.metadata filesystem parent with
    | error e => rfl
    | ok metadata =>
      show (if _ then _ else _) = Except.map _ (if _ then _ else _)
      split <;> rfl

end Components

/-! ## One call after another -/

section Sequence

variable {F α β : Type}

/-- The `?` of an operation that changes the `Vfs`. -/
def andThen (result : Except VfsError α × Vfs F) (next : Vfs F → Except VfsError β × Vfs F) :
    Except VfsError β × Vfs F :=
  match result with
  | (.error e, vfs) => (.error e, vfs)
  | (.ok _, vfs) => next vfs

/-- A call that succeeds hands its state on. -/
theorem andThen_of_map {r : Except VfsError α × Vfs F} {f : α → Reply} {reply : Reply} {v : Vfs F}
    (h : (r.1.map f, r.2) = (.ok reply, v)) (next : Vfs F → Except VfsError β × Vfs F) :
    andThen r next = next v := by
  obtain ⟨result, v'⟩ := r
  obtain ⟨hresult, rfl⟩ := Prod.mk.inj h
  cases result with
  | error e => cases hresult
  | ok a => rfl

theorem andThen_of_map_error {r : Except VfsError α × Vfs F} {f : α → Reply} {e : VfsError}
    {v : Vfs F} (h : (r.1.map f, r.2) = (.error e, v)) (next : Vfs F → Except VfsError β × Vfs F) :
    andThen r next = (.error e, v) := by
  obtain ⟨result, v'⟩ := r
  obtain ⟨hresult, rfl⟩ := Prod.mk.inj h
  cases result with
  | error e' =>
    obtain rfl := Except.error.inj hresult
    rfl
  | ok a => cases hresult

end Sequence

end GenericKernel.VfsCore
