import GenericKernel.Lib.Bytes
import GenericKernel.Lib.Word
import GenericKernel.Vfs.Lawful

/-!
# The memory filesystem (`crates/kernel-core/src/vfs.rs`)

`RamFs` keeps its nodes in a `BTreeMap` from inode numbers and, per directory, a `BTreeMap` from
names to inode numbers. Inode numbers are `u64`; byte vectors are lists, and running out of
memory is not modelled.
-/

namespace GenericKernel.VfsCore

open GenericKernel.Lib

structure RamNode where
  kind : NodeKind
  children : Std.TreeMap String Nat compareNames
  data : List UInt8

namespace RamNode

def directory : RamNode := ⟨.directory, {}, []⟩

def file : RamNode := ⟨.file, {}, []⟩

end RamNode

structure RamFs where
  nodes : Std.TreeMap Nat RamNode
  nextInode : Nat

namespace RamFs

def new : RamFs := ⟨({} : Std.TreeMap Nat RamNode).insert 1 .directory, 2⟩

def node (fs : RamFs) (inode : Nat) : Except VfsError RamNode :=
  match fs.nodes[inode]? with
  | some node => .ok node
  | none => .error .notFound

/-- `*self.node_mut(inode)? = …`, for a node that is there. -/
def setNode (fs : RamFs) (inode : Nat) (node : RamNode) : RamFs :=
  { fs with nodes := fs.nodes.insert inode node }

def metadata (fs : RamFs) (inode : Nat) : Except VfsError Metadata := do
  let node ← fs.node inode
  return ⟨inode, node.kind,
    match node.kind with
    | .file => node.data.length
    | .directory => 0⟩

/-- The directory node `parent`, as `lookup`, `create_node` and `remove` take it. -/
def directoryNode (fs : RamFs) (parent : Nat) : Except VfsError RamNode := do
  let directory ← fs.node parent
  if directory.kind ≠ .directory then .error .notDirectory else .ok directory

def lookup (fs : RamFs) (parent : Nat) (name : String) : Except VfsError Nat := do
  validateName name
  let directory ← fs.directoryNode parent
  match directory.children[name]? with
  | some inode => .ok inode
  | none => .error .notFound

def readDir (fs : RamFs) (inode : Nat) : Except VfsError (List DirEntry) := do
  let directory ← fs.directoryNode inode
  directory.children.toList.mapM fun (name, child) => do
    return ⟨name, ← fs.metadata child⟩

def createNode (fs : RamFs) (parent : Nat) (name : String) (kind : NodeKind) :
    Except VfsError Nat × RamFs :=
  match validateName name with
  | .error e => (.error e, fs)
  | .ok () =>
    match fs.directoryNode parent with
    | .error e => (.error e, fs)
    | .ok directory =>
      if name ∈ directory.children then (.error .alreadyExists, fs)
      else
        let inode := fs.nextInode
        match checkedAdd fs.nextInode 1 with
        | none => (.error .inodeExhausted, fs)
        | some nextInode =>
          let node := match kind with
            | .file => RamNode.file
            | .directory => RamNode.directory
          let fs := { fs with nextInode := nextInode }.setNode inode node
          -- `self.node_mut(parent)?` after the insertion
          match fs.node parent with
          | .error e => (.error e, fs)
          | .ok directory =>
            (.ok inode, fs.setNode parent
              { directory with children := directory.children.insert name inode })

def createFile (fs : RamFs) (parent : Nat) (name : String) : Except VfsError Nat × RamFs :=
  fs.createNode parent name .file

def createDir (fs : RamFs) (parent : Nat) (name : String) : Except VfsError Nat × RamFs :=
  fs.createNode parent name .directory

/-- The file node `inode`, as `read`, `write` and `truncate` take it. -/
def fileNode (fs : RamFs) (inode : Nat) : Except VfsError RamNode := do
  let node ← fs.node inode
  if node.kind = .directory then .error .isDirectory else .ok node

def read (fs : RamFs) (inode offset bufferLen : Nat) : Except VfsError (List UInt8) := do
  let node ← fs.fileNode inode
  if node.data.length ≤ offset then .ok []
  else
    let count := min bufferLen (node.data.length - offset)
    .ok ((node.data.drop offset).take count)

def write (fs : RamFs) (inode offset : Nat) (data : List UInt8) : Except VfsError Nat × RamFs :=
  match fs.fileNode inode with
  | .error e => (.error e, fs)
  | .ok node =>
    match checkedAdd offset data.length with
    | none => (.error .offsetOverflow, fs)
    | some stop =>
      let grown := if node.data.length < stop then resize node.data stop else node.data
      -- `node.data[offset..end].copy_from_slice(data)`
      let bytes := grown.take offset ++ data ++ grown.drop stop
      (.ok data.length, fs.setNode inode { node with data := bytes })

def truncate (fs : RamFs) (inode len : Nat) : Except VfsError Unit × RamFs :=
  match fs.fileNode inode with
  | .error e => (.error e, fs)
  | .ok node => (.ok (), fs.setNode inode { node with data := resize node.data len })

def remove (fs : RamFs) (parent : Nat) (name : String) : Except VfsError Unit × RamFs :=
  match validateName name with
  | .error e => (.error e, fs)
  | .ok () =>
    match fs.directoryNode parent with
    | .error e => (.error e, fs)
    | .ok directory =>
      match directory.children[name]? with
      | none => (.error .notFound, fs)
      | some child =>
        match fs.node child with
        | .error e => (.error e, fs)
        | .ok childNode =>
          if childNode.kind = .directory ∧ ¬ childNode.children.isEmpty then
            (.error .directoryNotEmpty, fs)
          else
            let fs := fs.setNode parent { directory with children := directory.children.erase name }
            (.ok (), { fs with nodes := fs.nodes.erase child })

instance : FileSystem RamFs where
  name _ := "ramfs"
  rootInode _ := 1
  metadata := metadata
  lookup := lookup
  readDir := readDir
  createFile := createFile
  createDir := createDir
  read := read
  write := write
  truncate := truncate
  remove := remove

end RamFs

end GenericKernel.VfsCore
