import GenericKernel.Fs.Contents

/-!
# Mounting again

The filesystem keeps nothing in memory but its device. A disk that satisfies the
invariant carries the superblock that `mount` looks for and a root directory, so
mounting it again succeeds without touching it, and every query answers as
before.
-/

namespace GenericKernel.Fs

open GenericKernel.Lib

/-- The calls of the `FileSystem` trait that change nothing. -/
inductive Query
  | metadata (inode : Nat)
  | lookup (parent : Nat) (name : String)
  | readDir (inode : Nat)
  | read (inode offset bufferLen : Nat)

namespace Query

def Result : Query → Type
  | metadata _ => Metadata
  | lookup _ _ => Nat
  | readDir _ => List DirEntry
  | read _ _ _ => List UInt8

def prog : (q : Query) → FsProg q.Result
  | metadata inode => Fs.metadata inode
  | lookup parent name => Fs.lookup parent name
  | readDir inode => Fs.readDir inode
  | read inode offset bufferLen => Fs.read inode offset bufferLen

/-- What the query returns on a device without faults. -/
def answer (sectors : Nat) (d : Disk) (q : Query) : Except VfsError q.Result :=
  (evaluate sectors .outOfRange q.prog d).1

end Query

section Superblock

variable {sectors : Nat}

/-- The bytes `format` puts at the start of the superblock. -/
theorem toList_superblock : ∃ rest, (superblock sectors).toList =
    MAGIC ++ leBytes 4 VERSION.toNat ++ leBytes 4 INODE_COUNT ++ leBytes 8 DATA_START ++
      leBytes 8 sectors ++ rest := by
  refine ⟨_, toList_splice_zero zeroSector ?_⟩
  simp only [List.length_append, length_leBytes]
  decide

theorem superblock_magic : slice (superblock sectors) 0 8 = MAGIC := by
  obtain ⟨rest, hrest⟩ := @toList_superblock sectors
  unfold slice
  rw [hrest, List.drop_zero]
  simp only [List.append_assoc]
  exact List.take_left' rfl

theorem superblock_version : readU32 (superblock sectors).toList 8 = VERSION := by
  obtain ⟨rest, hrest⟩ := @toList_superblock sectors
  rw [hrest]
  simp only [List.append_assoc]
  exact readU32_append rfl VERSION

theorem superblock_inodeCount : (readU32 (superblock sectors).toList 12).toNat = INODE_COUNT := by
  obtain ⟨rest, hrest⟩ := @toList_superblock sectors
  have hfield := @readU32_append (MAGIC ++ leBytes 4 VERSION.toNat)
    (leBytes 8 DATA_START ++ (leBytes 8 sectors ++ rest)) 12 rfl (UInt32.ofNat INODE_COUNT)
  have hcount : (UInt32.ofNat INODE_COUNT).toNat = INODE_COUNT := rfl
  rw [hcount] at hfield
  rw [hrest]
  simp only [List.append_assoc] at hfield ⊢
  rw [hfield, hcount]

theorem superblock_dataStart : (readU64 (superblock sectors).toList 16).toNat = DATA_START := by
  obtain ⟨rest, hrest⟩ := @toList_superblock sectors
  have hfield := @readU64_append (MAGIC ++ leBytes 4 VERSION.toNat ++ leBytes 4 INODE_COUNT)
    (leBytes 8 sectors ++ rest) 16 rfl (UInt64.ofNat DATA_START)
  have hstart : (UInt64.ofNat DATA_START).toNat = DATA_START := rfl
  rw [hstart] at hfield
  rw [hrest]
  simp only [List.append_assoc] at hfield ⊢
  rw [hfield, hstart]

theorem superblock_sectors (hword : sectors < wordSize) :
    (readU64 (superblock sectors).toList 24).toNat = sectors := by
  obtain ⟨rest, hrest⟩ := @toList_superblock sectors
  have hsectors : (UInt64.ofNat sectors).toNat = sectors :=
    UInt64.toNat_ofNat_of_lt' (by rw [wordSize] at hword; exact hword)
  have hfield := @readU64_append (MAGIC ++ leBytes 4 VERSION.toNat ++ leBytes 4 INODE_COUNT ++
    leBytes 8 DATA_START) rest 24 rfl (UInt64.ofNat sectors)
  rw [hsectors] at hfield
  rw [hrest]
  simp only [List.append_assoc] at hfield ⊢
  rw [hfield, hsectors]

end Superblock

/-- A disk with the superblock of its device and a root directory is mounted as it is. -/
theorem mount_evaluate_of_superblock {sectors : Nat} {d : Disk} {e : DiskInode}
    (hsize : DATA_START + 1 < sectors) (hword : sectors < wordSize)
    (hsuper : d 0 = superblock sectors) (he : record d 1 = .ok e) (hkind : e.kind = 2)
    (formatIfMissing : Bool) :
    evaluate sectors .outOfRange (mount sectors formatIfMissing) d = (.ok false, d) := by
  have hone : InTable 1 := ⟨le_refl 1, by decide⟩
  have hroot := ((readInode_reads (E := perfect sectors) (d := d) trivial
    (show DATA_START ≤ sectors by omega) hone).runs trivial).evaluate
  rw [he] at hroot
  have hfields : ¬ (readU32 (d 0).toList 8 ≠ VERSION ∨
      (readU32 (d 0).toList 12).toNat ≠ INODE_COUNT ∨
      (readU64 (d 0).toList 16).toNat ≠ DATA_START ∨
      (readU64 (d 0).toList 24).toNat ≠ sectors) := by
    rw [hsuper]
    rintro (hne | hne | hne | hne)
    · exact hne superblock_version
    · exact hne superblock_inodeCount
    · exact hne superblock_dataStart
    · exact hne (superblock_sectors hword)
  unfold mount
  rw [if_neg (Nat.not_le.mpr hsize), evaluate_bind, readSector_evaluate (Nat.zero_lt_of_lt hsize)]
  dsimp only
  rw [if_pos (by rw [hsuper]; exact superblock_magic), if_neg hfields, evaluate_bind, hroot]
  dsimp only
  rw [if_neg (fun hne => hne hkind)]
  rfl

/-- A disk that satisfies the invariant is mounted as it is. -/
theorem Consistent.mount_evaluate {sectors : Nat} {d : Disk} {T : Table}
    (h : Consistent sectors d T) (formatIfMissing : Bool) :
    evaluate sectors .outOfRange (mount sectors formatIfMissing) d = (.ok false, d) :=
  mount_evaluate_of_superblock h.device.1 h.device.2 h.superblock
    (h.shows 1 ⟨le_refl 1, by decide⟩) h.names.root formatIfMissing

/-- **Mounting again.** After a format and any sequence of operations, a second
`mount` finds the filesystem, whether or not it may format, and every query
answers as before. -/
theorem remount_answers {sectors : Nat} (hword : sectors < wordSize) {d d₀ : Disk}
    (hmount : evaluate sectors .outOfRange (mount sectors true) d = (.ok true, d₀))
    (ops : List Op) (hrange : ∀ op ∈ ops, op.InRange) (formatIfMissing : Bool) :
    ∃ d', evaluate sectors .outOfRange (mount sectors formatIfMissing)
        (ops.foldl (step sectors) d₀) = (.ok false, d') ∧
      ∀ q : Query, q.answer sectors d' = q.answer sectors (ops.foldl (step sectors) d₀) := by
  have hfresh : Reachable sectors d₀ := .fresh hword hmount
  obtain ⟨T, hT⟩ := (hfresh.run ops hrange).consistent
  exact ⟨_, hT.mount_evaluate formatIfMissing, fun _ => rfl⟩

/-- A filesystem with one directory, mounted again. -/
theorem remount_answers_oneDir : ∃ d₀ d',
    evaluate 32 .outOfRange (mount 32 true) (fun _ => zeroSector) = (.ok true, d₀) ∧
    evaluate 32 .outOfRange (mount 32 false) ([Op.createDir 1 "etc"].foldl (step 32) d₀) =
      (.ok false, d') := by
  obtain ⟨d', hd', _⟩ := remount_answers (lt_wordSize (by decide)) mount_zeros [Op.createDir 1 "etc"]
    (fun op hop => by rw [List.mem_singleton.mp hop]; trivial) false
  exact ⟨_, d', mount_zeros, hd'⟩

end GenericKernel.Fs
