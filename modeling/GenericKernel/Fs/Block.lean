/-!
# Sectors, errors and names (`crates/kernel-core/src/block.rs`, `vfs.rs`)
-/

namespace GenericKernel

def SECTOR_SIZE : Nat := 512

/-- The contents of one sector. -/
abbrev Sector := Vector UInt8 SECTOR_SIZE

inductive BlockError
  | outOfRange
  | readOnly
  | io
  deriving DecidableEq, Repr

inductive NodeKind
  | file
  | directory
  deriving DecidableEq, Repr

inductive VfsError
  | invalidPath
  | invalidName
  | nameTooLong
  | notFound
  | alreadyExists
  | notDirectory
  | isDirectory
  | directoryNotEmpty
  | rootImmutable
  | alreadyMounted
  | mountPointNotDirectory
  | offsetOverflow
  | inodeExhausted
  | io
  | noSpace
  | corruptFilesystem
  deriving DecidableEq, Repr

/-- `inode` and `len` are `u64` in the source. -/
structure Metadata where
  inode : Nat
  kind : NodeKind
  len : Nat
  deriving DecidableEq, Repr

structure DirEntry where
  name : String
  metadata : Metadata
  deriving DecidableEq, Repr

/-- The bytes of a string. -/
def nameBytes (name : String) : List UInt8 := name.toByteArray.data.toList

/-- Strings compare by their bytes. -/
def compareNames (left right : String) : Ordering := compare (nameBytes left) (nameBytes right)

def nameLe (left right : String) : Bool := (compareNames left right).isLE

end GenericKernel
