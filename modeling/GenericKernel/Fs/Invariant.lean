import GenericKernel.Fs.FileStore
import GenericKernel.Fs.Namespace

/-!
# The on-disk invariant

`Consistent` is what every disk satisfies after a format and any sequence of
operations (`run_consistent`): a valid superblock, a tree of uniquely named
records, and disjoint extents that hold their files.

* `Consistent.dirty` — scribbling over private sectors keeps it;
* `Consistent.commit` — one inode write turns it into that of the new table;
* `formatted_consistent`, `step_consistent` — a fresh format has it, and every
  operation keeps it, whether it succeeds or fails.
-/

namespace GenericKernel.Fs

open GenericKernel.Lib

/-- Disk `d` of a device with `sectors` sectors holds the table `T`. -/
structure Consistent (sectors : Nat) (d : Disk) (T : Table) : Prop where
  device : DATA_START + 1 < sectors ∧ sectors < wordSize
  superblock : d 0 = superblock sectors
  shows : Shows d T
  names : Names T
  layout : Layout sectors T

/-- The modifying calls of the `FileSystem` trait. -/
inductive Op
  | createFile (parent : Nat) (name : String)
  | createDir (parent : Nat) (name : String)
  | write (inode offset : Nat) (data : List UInt8)
  | truncate (inode len : Nat)
  | remove (parent : Nat) (name : String)

namespace Op

def Result : Op → Type
  | createFile _ _ => Nat
  | createDir _ _ => Nat
  | write _ _ _ => Nat
  | truncate _ _ => Unit
  | remove _ _ => Unit

def prog (sectors : Nat) : (op : Op) → FsProg op.Result
  | createFile parent name => Fs.createFile parent name
  | createDir parent name => Fs.createDir parent name
  | write inode offset data => Fs.write sectors inode offset data
  | truncate inode len => Fs.truncate sectors inode len
  | remove parent name => Fs.remove parent name

/-- Rounding up the end of the request does not overflow `usize`. -/
def InRange : Op → Prop
  | write _ offset data => offset + data.length + SECTOR_SIZE - 1 < wordSize
  | truncate _ len => len + SECTOR_SIZE - 1 < wordSize
  | _ => True

instance (op : Op) : Decidable op.InRange := by
  cases op <;> unfold InRange <;> infer_instance

end Op

/-- The disk after an operation on a device without faults. -/
def step (sectors : Nat) (d : Disk) (op : Op) : Disk :=
  (evaluate sectors .outOfRange (op.prog sectors) d).2

/-- A device without faults. -/
abbrev perfect (sectors : Nat) : Env Sector BlockError := Env.perfect sectors .outOfRange

/-! ## Keeping the invariant -/

variable {kind : UInt8} {newLen : UInt64} {α : Type} {i : Nat}

section Keeping

variable {sectors inode : Nat} {d d' : Disk} {T : Table}

theorem Consistent.mounted {E : Env Sector BlockError} (h : Consistent E.size d T) :
    Mounted E d T where
  low := le_of_lt (Nat.lt_of_succ_lt h.device.1)
  size := h.device.2
  shows := h.shows
  layout := h.layout

/-- What is no private sector is metadata or another file's. -/
theorem differsIn_metadata (h : DiffersIn (Private T inode) d d') {s : Nat} (hs : s < DATA_START) :
    d' s = d s := h s fun hp => absurd hp.1 (Nat.not_le.mpr hs)

/-- Scribbling over private sectors is harmless. -/
theorem Consistent.dirty (h : Consistent sectors d T) (hd : DiffersIn (Private T inode) d d') :
    Consistent sectors d' T where
  device := h.device
  superblock := (differsIn_metadata hd (by decide)).trans h.superblock
  shows := h.shows.congr fun _ _ hs => differsIn_metadata hd hs
  names := h.names
  layout := h.layout

/-- One inode write commits the new table. -/
theorem Consistent.commit {e : DiskInode} (h : Consistent sectors d T) (hi : InTable inode)
    (he : e.Storable) (hN : Names (Function.update T inode e))
    (hL : Layout sectors (Function.update T inode e)) :
    Consistent sectors (putRecord d inode e) (Function.update T inode e) where
  device := h.device
  superblock := (putRecord_outside d e hi (.inl rfl)).trans h.superblock
  shows := h.shows.put hi he
  names := hN
  layout := hL

/-- A record without sectors keeps the layout. -/
theorem Layout.clear {e : DiskInode} (hL : Layout sectors T) (hcount : e.sectorCount = 0)
    (hlen : e.len = 0) : Layout sectors (Function.update T inode e) := by
  have hself : Function.update T inode e inode = e := Function.update_self _ _ _
  have hother : ∀ i, i ≠ inode → Function.update T inode e i = T i :=
    fun i hne => Function.update_of_ne hne _ _
  have hne : ∀ i, (Function.update T inode e i).HasExtent → i ≠ inode := by
    intro i hextent heq
    rw [heq, hself] at hextent
    exact hextent.2 hcount
  refine ⟨fun i hi hextent => ?_, fun i hi j hj hij hextent hextent' => ?_, fun i hi hkind => ?_,
    fun i hi hkind => ?_⟩
  · have hi' := hne i hextent
    rw [hother i hi'] at hextent ⊢
    exact hL.inside i hi hextent
  · have hi' := hne i hextent
    have hj' := hne j hextent'
    rw [hother i hi'] at hextent ⊢
    rw [hother j hj'] at hextent' ⊢
    exact hL.apart i hi j hj hij hextent hextent'
  · by_cases heq : i = inode
    · rw [heq, hself, hlen]
      exact Nat.zero_le _
    · rw [hother i heq] at hkind ⊢
      exact hL.holds i hi hkind
  · by_cases heq : i = inode
    · rw [heq, hself]
      exact hcount
    · rw [hother i heq] at hkind ⊢
      exact hL.directory i hi hkind

variable (h : Consistent sectors d T)
include h

/-- A new node. -/
theorem Consistent.create {parent : Nat} {name : String}
    (hkind : kind = 1 ∨ kind = 2) (hvalid : ValidName name) (hin : InTable parent)
    (hdir : (T parent).kind = 2) (hnone : ∀ i, ¬ IsChild T parent name i)
    (hi : inode ∈ inodeNumbers) (hfree : (T inode).kind = 0) :
    Consistent sectors (putRecord d inode (newEntry parent name kind))
      (Function.update T inode (newEntry parent name kind)) := by
  have hparent : (newEntry parent name kind).parent.toNat = parent := by
    refine UInt64.toNat_ofNat_of_lt' ?_
    have := hin.2
    have : INODE_COUNT = 64 := rfl
    show parent < 2 ^ 64
    omega
  have hstorable : (newEntry parent name kind).Storable := by
    refine newEntry_storable parent hvalid ?_
    rcases hkind with rfl | rfl <;> decide
  refine h.commit (inTable_of_mem hi) hstorable ?_ (h.layout.clear rfl rfl)
  exact h.names.insert hi hfree hin hdir hparent (nameText_newEntry parent kind hvalid) hvalid
    hnone

/-- A removed leaf. -/
theorem Consistent.remove (hi : inode ∈ inodeNumbers)
    (hleaf : ∀ j ∈ inodeNumbers, (T j).kind ≠ 0 → (T j).parent.toNat ≠ inode) :
    Consistent sectors (putRecord d inode DiskInode.empty)
      (Function.update T inode DiskInode.empty) := by
  have hstorable : DiskInode.empty.Storable := ⟨by decide, by decide⟩
  exact h.commit (inTable_of_mem hi) hstorable (h.names.erase hi rfl hleaf)
    (h.layout.clear rfl rfl)

theorem Created.consistent {parent : Nat} {name : String} {r : Except VfsError Nat} (hkind : kind = 1 ∨ kind = 2)
    (hc : Created d T parent name kind r d') : ∃ T', Consistent sectors d' T' := by
  cases hc with
  | badName _ => exact ⟨T, h⟩
  | badParent _ => exact ⟨T, h⟩
  | taken _ => exact ⟨T, h⟩
  | full _ _ => exact ⟨T, h⟩
  | done hvalid hin hdir hnone hleast =>
      exact ⟨_, h.create hkind hvalid hin hdir hnone hleast.1.1 hleast.1.2⟩

theorem Removed.consistent {parent : Nat} {name : String} {r : Except VfsError Unit} (hr : Removed d T parent name r d') :
    ∃ T', Consistent sectors d' T' := by
  cases hr with
  | missing _ => exact ⟨T, h⟩
  | notEmpty _ _ _ _ _ => exact ⟨T, h⟩
  | done hchild hleaf => exact ⟨_, h.remove hchild.number hleaf⟩

/-- The committed entry of a file operation. -/
theorem Consistent.commitFile {needed : Nat} {e : DiskInode}
    (hi : inode ∈ inodeNumbers) (hkind : (T inode).kind = 1) (he : Housed sectors T inode needed e)
    (hlen : newLen.toNat ≤ SECTOR_SIZE * e.sectors) (hd : DiffersIn (Private T inode) d d') :
    Consistent sectors (putRecord d' inode { e with len := newLen })
      (Function.update T inode { e with len := newLen }) := by
  have hin := inTable_of_mem hi
  obtain ⟨start, count, hsame⟩ := he.same
  have hstorable : DiskInode.Storable { e with len := newLen } := by
    have := h.shows.storable hin
    rw [hsame]
    exact this
  refine (h.dirty hd).commit hin hstorable ?_ (h.layout.put hkind he hlen)
  -- kind, parent and name stay as they are
  have hfields : ∀ i, (Function.update T inode { e with len := newLen } i).kind = (T i).kind ∧
      (Function.update T inode { e with len := newLen } i).parent = (T i).parent ∧
      (Function.update T inode { e with len := newLen } i).nameText = (T i).nameText := by
    intro i
    by_cases heq : i = inode
    · rw [heq, Function.update_self, hsame]
      exact ⟨rfl, rfl, rfl⟩
    · rw [Function.update_of_ne heq]
      exact ⟨rfl, rfl, rfl⟩
  exact h.names.congr (fun i _ => (hfields i).1) (fun i _ => (hfields i).2.1)
    fun i _ => (hfields i).2.2

/-- The invariant is one of the disk: any table it shows will do. -/
theorem Consistent.of_shows {T' : Table} (hT : Shows d T') :
    Consistent sectors d T' := by
  have hsame : ∀ i, InTable i → T' i = T i := fun i hi => hT.unique h.shows hi
  have hsame' : ∀ i ∈ inodeNumbers, T' i = T i := fun i hi => hsame i (inTable_of_mem hi)
  refine ⟨h.device, h.superblock, hT, h.names.congr (fun i hi => by rw [hsame i hi])
    (fun i hi => by rw [hsame i hi]) fun i hi => by rw [hsame i hi], fun i hi => ?_,
    fun i hi j hj => ?_, fun i hi => ?_, fun i hi => ?_⟩
  · rw [hsame' i hi]
    exact h.layout.inside i hi
  · rw [hsame' i hi, hsame' j hj]
    exact h.layout.apart i hi j hj
  · rw [hsame' i hi]
    exact h.layout.holds i hi
  · rw [hsame i hi]
    exact h.layout.directory i hi

/-- The entry of an operation that found room: the old bytes and the data fit, and
before the commit only private sectors differ. -/
theorem Capacity.room {offset : Nat} {data : List UInt8} {e : DiskInode} {d₁ : Disk} (hrange : offset + data.length + SECTOR_SIZE - 1 < wordSize)
    (hi : inode ∈ inodeNumbers) (hkind : (T inode).kind = 1)
    (hcapacity : Capacity sectors d T inode (sectorsForLen (offset + data.length)) (.ok e) d₁) :
    Housed sectors T inode (sectorsForLen (offset + data.length)) e ∧
      offset + data.length ≤ SECTOR_SIZE * e.sectors ∧
      (T inode).len.toNat ≤ SECTOR_SIZE * e.sectors ∧
      DiffersIn (Private T inode) d (stored d₁ e offset data) := by
  have he := hcapacity.housed h.device.2 h.layout hi hkind
  obtain ⟨start, count, hsame⟩ := he.same
  have hroom : offset + data.length ≤ SECTOR_SIZE * e.sectors :=
    le_trans (sectorsForLen_spec hrange).1 (Nat.mul_le_mul_left _ he.room)
  have hold : (T inode).len.toNat ≤ SECTOR_SIZE * e.sectors :=
    le_trans (h.layout.holds inode hi hkind) (Nat.mul_le_mul_left _ he.grows)
  have hlen : e.len.toNat ≤ SECTOR_SIZE * e.sectors := by
    rw [hsame]
    rw [hsame] at hold
    exact hold
  exact ⟨he, hroom, hold, @stored_differsIn (perfect sectors) d d₁ T inode offset data e _ he hroom
    hlen (@Capacity.differsIn (perfect sectors) _ _ _ _ _ _ hcapacity)⟩

/-- The table a successful file operation leaves. -/
theorem Stored.consistent_done {offset : Nat} {data : List UInt8} {value : α} (hrange : offset + data.length + SECTOR_SIZE - 1 < wordSize)
    (hnew : ∀ k, (T inode).len.toNat ≤ SECTOR_SIZE * k → offset + data.length ≤ SECTOR_SIZE * k →
      newLen.toNat ≤ SECTOR_SIZE * k)
    (hs : Stored sectors d T inode offset data newLen value (.ok value) d') :
    ∃ e d₁, Capacity sectors d T inode (sectorsForLen (offset + data.length)) (.ok e) d₁ ∧
      Consistent sectors d' (Function.update T inode { e with len := newLen }) := by
  cases hs with
  | @done e d₁ hi hkind hcapacity =>
      obtain ⟨he, hroom, hold, hd⟩ := hcapacity.room h hrange hi hkind
      exact ⟨e, d₁, hcapacity, h.commitFile hi hkind he (hnew _ hold hroom) hd⟩

/-- The records of the other inodes stay as they are, byte for byte. -/
theorem Stored.rawRecord {offset j : Nat} {data : List UInt8} {value : α} {r : Except VfsError α} (hrange : offset + data.length + SECTOR_SIZE - 1 < wordSize)
    (hs : Stored sectors d T inode offset data newLen value r d') (hj : InTable j)
    (hne : j ≠ inode) : Fs.rawRecord d' j = Fs.rawRecord d j := by
  cases hs with
  | notFile _ => rfl
  | noRoom _ _ hcapacity =>
      exact rawRecord_congr hj fun s _ hs => differsIn_metadata
        (@Capacity.differsIn (perfect sectors) _ _ _ _ _ _ hcapacity) hs
  | done hi hkind hcapacity =>
      obtain ⟨_, _, _, hd⟩ := hcapacity.room h hrange hi hkind
      rw [rawRecord_putRecord_of_ne _ _ (inTable_of_mem hi) hj hne]
      exact rawRecord_congr hj fun s _ hs => differsIn_metadata hd hs

theorem Stored.consistent {offset : Nat} {data : List UInt8} {value : α} {r : Except VfsError α} (hrange : offset + data.length + SECTOR_SIZE - 1 < wordSize)
    (hnew : ∀ k, (T inode).len.toNat ≤ SECTOR_SIZE * k → offset + data.length ≤ SECTOR_SIZE * k →
      newLen.toNat ≤ SECTOR_SIZE * k)
    (hs : Stored sectors d T inode offset data newLen value r d') :
    ∃ T', Consistent sectors d' T' := by
  cases hs with
  | notFile _ => exact ⟨T, h⟩
  | noRoom _ _ hcapacity =>
      exact ⟨T, h.dirty (@Capacity.differsIn (perfect sectors) _ _ _ _ _ _ hcapacity)⟩
  | done hi hkind hcapacity =>
      have hdone : Stored sectors d T inode offset data newLen value (.ok value) _ :=
        .done hi hkind hcapacity
      obtain ⟨e, d₁, _, hC⟩ := hdone.consistent_done h hrange hnew
      exact ⟨_, hC⟩

end Keeping

/-! ## Operations on a device without faults -/

section Evaluate

variable {sectors inode offset parent : Nat} {d : Disk} {T : Table} {data : List UInt8}

theorem create_evaluate (h : Consistent sectors d T) (parent : Nat) (name : String)
    (kind : UInt8) : ∃ r d', Created d T parent name kind r d' ∧
      evaluate sectors .outOfRange (create parent name kind) d = (r, d') := by
  have hm : Mounted (perfect sectors) d T := Consistent.mounted h
  obtain ⟨r, d', hcreated, hruns⟩ := @create_runsFrom (perfect sectors) d T parent name trivial
    hm.low h.shows h.names.named 0 kind (fun _ _ _ _ _ _ => id) fun _ _ => trivial
  exact ⟨r, d', hcreated, hruns.evaluate⟩

/-- A name that is not taken is created in the first unused record. -/
theorem create_evaluate_done {name : String} (h : Consistent sectors d T) (hvalid : ValidName name)
    (hin : InTable parent) (hdir : (T parent).kind = 2) (hnone : ∀ i, ¬ IsChild T parent name i)
    (hleast : IsLeast {i | i ∈ inodeNumbers ∧ (T i).kind = 0} i) :
    evaluate sectors .outOfRange (create parent name kind) d =
      (.ok i, putRecord d i (newEntry parent name kind)) := by
  obtain ⟨r, d', hcreated, heval⟩ := create_evaluate h parent name kind
  rw [heval]
  cases hcreated with
  | badName hbad =>
      rw [validateDiskName_eq_ok.mpr hvalid] at hbad
      cases hbad
  | badParent hbad => exact absurd ⟨hin, hdir⟩ hbad
  | taken hchild => exact absurd hchild (hnone _)
  | full _ hall => exact absurd hleast.1.2 (hall i hleast.1.1)
  | done _ _ _ _ hleast' => rw [hleast.unique hleast']

/-- The extent search only reads the table. -/
theorem findExtent_evaluate (h : Consistent sectors d T) (count exclude : Nat) :
    evaluate sectors .outOfRange (findExtent sectors count exclude) d =
      (findExtentTable sectors T count exclude, d) := by
  have hm : Mounted (perfect sectors) d T := Consistent.mounted h
  obtain ⟨k, hreads⟩ := @findExtent_reads (perfect sectors) d T trivial hm.low h.shows sectors
    count exclude
  exact (hreads.runs trivial).evaluate

/-- **Lowest-gap search**: on a consistent device the search for `count` sectors
returns the least free run of the data area, and fails for want of space exactly
when there is none, provided that none of its sums overflows. -/
theorem findExtent_lowest (h : Consistent sectors d T) (exclude : Nat) {count : Nat}
    (hpos : 0 < count) (hsums : ∀ sum ∈ searchSums T exclude count, sum < wordSize) :
    (∀ s, evaluate sectors .outOfRange (findExtent sectors count exclude) d = (.ok s, d) ↔
      IsLeast {a | FreeRun sectors T exclude count a} s) ∧
    (evaluate sectors .outOfRange (findExtent sectors count exclude) d = (.error .noSpace, d) ↔
      ∀ a, ¬ FreeRun sectors T exclude count a) := by
  have hspec := findExtentTable_exact h.device.2 h.layout.extentsIn exclude hpos hsums
  rw [findExtent_evaluate h]
  cases hresult : findExtentTable sectors T count exclude with
  | ok a =>
      rw [hresult] at hspec
      refine ⟨fun s => ⟨fun heq => ?_, fun hs => by rw [hspec.unique hs]⟩, nofun, fun hnone => ?_⟩
      · cases heq
        exact hspec
      · exact absurd hspec.1 (hnone a)
  | error e =>
      rw [hresult] at hspec
      obtain ⟨rfl, hnone⟩ := hspec
      exact ⟨fun s => ⟨nofun, fun hs => absurd hs.1 (hnone s)⟩, fun _ => hnone, fun _ => rfl⟩

theorem remove_evaluate (h : Consistent sectors d T) (parent : Nat) (name : String) :
    ∃ r d', Removed d T parent name r d' ∧
      evaluate sectors .outOfRange (remove parent name) d = (r, d') := by
  have hm : Mounted (perfect sectors) d T := Consistent.mounted h
  obtain ⟨r, d', hremoved, hruns⟩ := @remove_runs (perfect sectors) d T parent name trivial
    hm.low h.shows h.names fun _ _ => trivial
  exact ⟨r, d', hremoved, hruns.evaluate⟩

theorem write_evaluate (h : Consistent sectors d T) (inode : Nat)
    (hrange : offset + data.length + SECTOR_SIZE - 1 < wordSize) :
    ∃ r d', Stored sectors d T inode offset data
        (max (T inode).len (UInt64.ofNat (offset + data.length))) data.length r d' ∧
      evaluate sectors .outOfRange (write sectors inode offset data) d = (r, d') := by
  have hm : Mounted (perfect sectors) d T := Consistent.mounted h
  obtain ⟨r, d', hstored, hruns⟩ := @write_runs (perfect sectors) d T inode offset data hm
    h.names.root hrange (fun _ _ => trivial) fun _ _ _ _ _ _ _ => trivial
  exact ⟨r, d', hstored, hruns.evaluate⟩

/-- A write succeeds if there is a run it could move to. -/
theorem write_evaluate_done {a : Nat} (h : Consistent sectors d T)
    (hrange : offset + data.length + SECTOR_SIZE - 1 < wordSize) (hi : inode ∈ inodeNumbers)
    (hkind : (T inode).kind = 1) (hsmall : sectorsForLen (offset + data.length) < 2 ^ 32)
    (ha : FreeRun sectors T inode (sectorsForLen (offset + data.length)) a) :
    ∃ d', evaluate sectors .outOfRange (write sectors inode offset data) d =
        (.ok data.length, d') ∧
      Stored sectors d T inode offset data
        (max (T inode).len (UInt64.ofNat (offset + data.length))) data.length
        (.ok data.length) d' := by
  obtain ⟨r, d', hstored, heval⟩ := write_evaluate h inode hrange
  cases hstored with
  | notFile hnot => exact absurd ⟨hi, hkind⟩ hnot
  | noRoom _ _ hcapacity =>
      cases hcapacity with
      | full _ hnone => exact absurd ha (hnone a)
      | tooLarge _ hlarge _ => omega
  | done hi' hkind' hcapacity => exact ⟨_, heval, .done hi' hkind' hcapacity⟩

theorem truncate_evaluate (h : Consistent sectors d T) (inode : Nat) {len : Nat}
    (hrange : len + SECTOR_SIZE - 1 < wordSize) :
    ∃ r d', Stored sectors d T inode len [] (UInt64.ofNat len) () r d' ∧
      evaluate sectors .outOfRange (truncate sectors inode len) d = (r, d') := by
  have hm : Mounted (perfect sectors) d T := Consistent.mounted h
  obtain ⟨r, d', hstored, hruns⟩ := @truncate_runs (perfect sectors) d T inode len hm
    h.names.root hrange (fun _ _ => trivial) fun _ _ _ _ _ _ _ => trivial
  exact ⟨r, d', hstored, hruns.evaluate⟩

theorem toNat_ofNat_end {len : Nat} (h : len + SECTOR_SIZE - 1 < wordSize) :
    (UInt64.ofNat len).toNat = len := by
  have : SECTOR_SIZE = 512 := rfl
  rw [wordSize] at h
  exact UInt64.toNat_ofNat_of_lt' (show len < 2 ^ 64 by omega)

theorem toNat_max (a b : UInt64) : (max a b).toNat = max a.toNat b.toNat := by
  show (if a ≤ b then b else a).toNat = _
  by_cases h : a ≤ b
  · rw [if_pos h, max_eq_right (UInt64.le_iff_toNat_le.mp h)]
  · have hle : b.toNat ≤ a.toNat := by
      by_contra hlt
      exact h (UInt64.le_iff_toNat_le.mpr (by omega))
    rw [if_neg h, max_eq_left hle]

/-- The new length fits where the old one and the data fit. -/
theorem write_newLen_le {len : UInt64} {stop : Nat} (h : stop + SECTOR_SIZE - 1 < wordSize) :
    ∀ k, len.toNat ≤ SECTOR_SIZE * k → stop ≤ SECTOR_SIZE * k →
      (max len (UInt64.ofNat stop)).toNat ≤ SECTOR_SIZE * k := by
  intro k hold hnew
  rw [toNat_max, toNat_ofNat_end h]
  exact max_le hold hnew

theorem truncate_newLen_le {old stop : Nat} (h : stop + SECTOR_SIZE - 1 < wordSize) :
    ∀ k, old ≤ SECTOR_SIZE * k → stop ≤ SECTOR_SIZE * k →
      (UInt64.ofNat stop).toNat ≤ SECTOR_SIZE * k := by
  intro k _ hnew
  rw [toNat_ofNat_end h]
  exact hnew

/-- The disk after an operation, by what the operation evaluates to. -/
theorem step_eq (op : Op) {d' : Disk} {r : Except VfsError op.Result}
    (h : evaluate sectors .outOfRange (op.prog sectors) d = (r, d')) : step sectors d op = d' := by
  unfold step
  rw [h]

/-- What an operation in range does to a disk that shows the table `T`. -/
def Op.Does (sectors : Nat) (d : Disk) (T : Table) :
    (op : Op) → Except VfsError op.Result → Disk → Prop
  | .createFile parent name => Created d T parent name 1
  | .createDir parent name => Created d T parent name 2
  | .write inode offset data => Stored sectors d T inode offset data
      (max (T inode).len (UInt64.ofNat (offset + data.length))) data.length
  | .truncate inode len => Stored sectors d T inode len [] (UInt64.ofNat len) ()
  | .remove parent name => Removed d T parent name

theorem step_does (op : Op) (h : Consistent sectors d T) (hrange : op.InRange) :
    ∃ r, op.Does sectors d T r (step sectors d op) ∧
      evaluate sectors .outOfRange (op.prog sectors) d = (r, step sectors d op) := by
  suffices hdoes : ∃ r d', op.Does sectors d T r d' ∧
      evaluate sectors .outOfRange (op.prog sectors) d = (r, d') by
    obtain ⟨r, d', hd', heval⟩ := hdoes
    rw [step_eq op heval]
    exact ⟨r, hd', heval⟩
  cases op with
  | createFile parent name => exact create_evaluate h parent name 1
  | createDir parent name => exact create_evaluate h parent name 2
  | write inode offset data => exact write_evaluate h inode hrange
  | truncate inode len => exact truncate_evaluate h inode hrange
  | remove parent name => exact remove_evaluate h parent name

/-- **Every operation keeps the invariant**, successful or not. -/
theorem step_consistent (h : Consistent sectors d T) {op : Op} (hrange : op.InRange) :
    ∃ T', Consistent sectors (step sectors d op) T' := by
  obtain ⟨r, hdoes, _⟩ := step_does op h hrange
  cases op with
  | createFile parent name => exact Created.consistent h (.inl rfl) hdoes
  | createDir parent name => exact Created.consistent h (.inr rfl) hdoes
  | write inode offset data => exact Stored.consistent h hrange (write_newLen_le hrange) hdoes
  | truncate inode len => exact Stored.consistent h hrange (truncate_newLen_le hrange) hdoes
  | remove parent name => exact Removed.consistent h hdoes

end Evaluate

/-! ## Formatting -/

/-- The disk after `format`. -/
def formatted (sectors : Nat) (d : Disk) : Disk :=
  putRecord (Function.update (fillBlocks d 0 DATA_START zeroSector) 0 (superblock sectors)) 1
    DiskInode.root

/-- The table of a fresh filesystem. -/
def blankTable : Table := fun i => if i = 1 then DiskInode.root else DiskInode.empty

section Format

variable {sectors : Nat} {d : Disk}

theorem record_of_zero (h : d (inodeSector (i - 1)) = zeroSector) :
    record d i = .ok DiskInode.empty := by
  have hbound := inodeOffset_bound (i - 1)
  have hzeros : slice zeroSector (inodeOffset (i - 1)) INODE_SIZE = encodeInode DiskInode.empty := by
    have hlist : zeroSector.toList = List.replicate SECTOR_SIZE 0 := Vector.toList_replicate
    have hempty : encodeInode DiskInode.empty = List.replicate INODE_SIZE 0 := rfl
    unfold slice
    rw [hlist, List.drop_replicate, List.take_replicate, hempty]
    congr 1
    omega
  unfold record
  rw [h, hzeros]
  exact decodeInode_encodeInode ⟨by decide, by decide⟩

theorem format_evaluate (hsize : DATA_START + 1 < sectors) :
    evaluate sectors .outOfRange (format sectors) d = (.ok (), formatted sectors d) := by
  have hzero : Runs (perfect sectors) (forRange (fun sector => writeSector sector zeroSector)
      DATA_START) d (.ok ()) (fillBlocks d 0 DATA_START zeroSector) := by
    have hloop := @Runs.forRange _ _ _ _ (perfect sectors)
      (fun sector => writeSector sector zeroSector) DATA_START
      (fun i => fillBlocks d 0 i zeroSector) (by
        intro i hi
        have hstep := fillBlocks_succ d 0 i zeroSector
        rw [Nat.zero_add] at hstep
        rw [← hstep]
        exact Runs.writeBlock trivial mapBlock _ (show i < sectors by omega) trivial)
    rw [fillBlocks_zero] at hloop
    exact hloop
  have hsuper : Runs (perfect sectors) (writeSector 0 (superblock sectors))
      (fillBlocks d 0 DATA_START zeroSector) (.ok ())
      (Function.update (fillBlocks d 0 DATA_START zeroSector) 0 (superblock sectors)) :=
    Runs.writeBlock trivial mapBlock _ (show 0 < sectors by omega) trivial
  have hroot : Runs (perfect sectors) (writeInode 1 DiskInode.root)
      (Function.update (fillBlocks d 0 DATA_START zeroSector) 0 (superblock sectors)) (.ok ())
      (formatted sectors d) :=
    writeInode_runs trivial (show DATA_START ≤ sectors by omega) ⟨le_refl 1, by decide⟩ trivial
  exact (hzero.bind (hsuper.bind hroot)).evaluate

theorem blankTable_unused : ∀ i ∈ inodeNumbers, (blankTable i).kind = 0 := by
  intro i hi
  have hne : i ≠ 1 := by
    have := (mem_inodeNumbers.mp hi).1
    omega
  rw [blankTable, if_neg hne]
  rfl

/-- A fresh filesystem satisfies the invariant. -/
theorem formatted_consistent (hsize : DATA_START + 1 < sectors) (hword : sectors < wordSize)
    (d : Disk) : Consistent sectors (formatted sectors d) blankTable := by
  have hone : InTable 1 := ⟨le_refl 1, by decide⟩
  have hdead : ∀ i ∈ inodeNumbers, ¬ (blankTable i).kind ≠ 0 :=
    fun i hi hlive => hlive (blankTable_unused i hi)
  have hnone : ∀ i ∈ inodeNumbers, ¬ (blankTable i).HasExtent := by
    intro i hi hextent
    have := blankTable_unused i hi
    rw [hextent.1] at this
    exact absurd this (by decide)
  refine ⟨⟨hsize, hword⟩, ?_, fun i hi => ?_, ?_, ?_⟩
  · unfold formatted
    rw [putRecord_outside _ _ hone (.inl rfl), Function.update_self]
  · unfold formatted blankTable
    by_cases heq : i = 1
    · rw [if_pos heq, heq]
      exact record_putRecord_self _ _ ⟨by decide, by decide⟩
    · rw [if_neg heq, record_putRecord_of_ne _ _ hone hi heq]
      have hbounds := inodeSector_bounds hi
      refine record_of_zero ?_
      rw [Function.update_of_ne (by omega)]
      exact if_pos ⟨Nat.zero_le _, by omega⟩
  · exact ⟨rfl, fun i hi hlive => absurd hlive (hdead i hi), fun i hi hlive => absurd hlive
      (hdead i hi), fun i hi hlive => absurd hlive (hdead i hi),
      fun i hi _ _ hlive => absurd hlive (hdead i hi)⟩
  · refine ⟨fun i hi hextent => absurd hextent (hnone i hi), fun i hi _ _ _ hextent =>
      absurd hextent (hnone i hi), fun i hi hkind => ?_, fun i _ _ => ?_⟩
    · rw [blankTable_unused i hi] at hkind
      exact absurd hkind (by decide)
    · unfold blankTable
      by_cases heq : i = 1
      · rw [if_pos heq]
        rfl
      · rw [if_neg heq]
        rfl

theorem readSector_evaluate {s : Nat} (h : s < sectors) :
    evaluate sectors .outOfRange (readSector s) d = (.ok (d s), d) := by
  unfold readSector
  rw [evaluate_readBlock, if_pos h]

/-- A device without the magic is formatted. -/
theorem mount_evaluate_of_no_magic (hsize : DATA_START + 1 < sectors)
    (hmagic : slice (d 0) 0 8 ≠ MAGIC) :
    evaluate sectors .outOfRange (mount sectors true) d = (.ok true, formatted sectors d) := by
  unfold mount
  rw [if_neg (Nat.not_le.mpr hsize), evaluate_bind, readSector_evaluate (by omega)]
  dsimp only
  rw [if_neg hmagic, if_neg (by decide), evaluate_bind, format_evaluate hsize]
  rfl

/-- A device that `mount` formatted had no magic. -/
theorem mount_formats {d₀ : Disk}
    (h : evaluate sectors .outOfRange (mount sectors true) d = (.ok true, d₀)) :
    DATA_START + 1 < sectors ∧ d₀ = formatted sectors d := by
  by_cases hsize : sectors ≤ DATA_START + 1
  · unfold mount at h
    rw [if_pos hsize] at h
    cases h
  · have hsize' := Nat.not_le.mp hsize
    by_cases hmagic : slice (d 0) 0 8 = MAGIC
    · -- a device with the magic is never reported as formatted
      unfold mount at h
      rw [if_neg hsize, evaluate_bind, readSector_evaluate (by omega)] at h
      dsimp only at h
      rw [if_pos hmagic] at h
      split at h
      · cases h
      · rw [evaluate_bind] at h
        generalize evaluate sectors BlockError.outOfRange (readInode 1) d = result at h
        obtain ⟨r, d₁⟩ := result
        cases r with
        | error e => cases h
        | ok root =>
            dsimp only at h
            split at h
            · cases h
            · cases h
    · rw [mount_evaluate_of_no_magic hsize' hmagic] at h
      exact ⟨hsize', (Prod.mk.inj h).2.symm⟩

/-! ## A filesystem with one file, and with two -/

/-- A table with two records besides the root. -/
def pair (e e' : DiskInode) : Table := Function.update (Function.update blankTable 2 e) 3 e'

theorem one_inTable : InTable 1 := ⟨le_refl 1, by decide⟩

theorem two_mem : 2 ∈ inodeNumbers := mem_inodeNumbers.mpr ⟨le_refl 2, by decide⟩

theorem three_mem : 3 ∈ inodeNumbers := mem_inodeNumbers.mpr ⟨by decide, by decide⟩

theorem validName_f : ValidName "f" := validateDiskName_eq_ok.mp rfl

theorem validName_g : ValidName "g" := validateDiskName_eq_ok.mp rfl

/-- The first file of a fresh filesystem. -/
theorem createFile_formatted (hsize : DATA_START + 1 < sectors) (hword : sectors < wordSize)
    (d : Disk) {name : String} (hvalid : ValidName name) :
    evaluate sectors .outOfRange (createFile 1 name) (formatted sectors d) =
        (.ok 2, putRecord (formatted sectors d) 2 (newEntry 1 name 1)) ∧
      Consistent sectors (putRecord (formatted sectors d) 2 (newEntry 1 name 1))
        (Function.update blankTable 2 (newEntry 1 name 1)) := by
  have hC := formatted_consistent hsize hword d
  have hnone : ∀ i, ¬ IsChild blankTable 1 name i := fun i hi =>
    hi.live (blankTable_unused i hi.number)
  have hleast : IsLeast {i | i ∈ inodeNumbers ∧ (blankTable i).kind = 0} 2 :=
    ⟨⟨two_mem, rfl⟩, fun i hi => (mem_inodeNumbers.mp hi.1).1⟩
  exact ⟨create_evaluate_done hC hvalid one_inTable rfl hnone hleast,
    hC.create (.inl rfl) hvalid one_inTable rfl hnone two_mem rfl⟩

section OneFile

variable {e : DiskInode} {name other : String}

theorem isChild_oneFile (hvalid : ValidName name) :
    IsChild (Function.update blankTable 2 (newEntry 1 name 1)) 1 name 2 :=
  ⟨two_mem, show (1 : UInt8) ≠ 0 by decide, rfl, nameText_newEntry 1 1 hvalid⟩

theorem not_isChild_oneFile (hname : e.nameText = .ok name) (hne : name ≠ other) (i : Nat) :
    ¬ IsChild (Function.update blankTable 2 e) 1 other i := by
  intro hi
  by_cases htwo : i = 2
  · have hother := hi.name
    rw [htwo, Function.update_self, hname] at hother
    exact hne (Except.ok.inj hother)
  · have hlive := hi.live
    rw [Function.update_of_ne htwo] at hlive
    exact hlive (blankTable_unused i hi.number)

theorem isLeast_oneFile (hlive : e.kind ≠ 0) :
    IsLeast {i | i ∈ inodeNumbers ∧ (Function.update blankTable 2 e i).kind = 0} 3 := by
  refine ⟨⟨three_mem, rfl⟩, fun i hi => ?_⟩
  have hlow := (mem_inodeNumbers.mp hi.1).1
  by_contra hlt
  obtain rfl : i = 2 := by omega
  have hkind := hi.2
  rw [Function.update_self] at hkind
  exact hlive hkind

/-- A second node, of another name. -/
theorem create_oneFile (hkind : kind = 1 ∨ kind = 2) (hlive : e.kind ≠ 0)
    (hname : e.nameText = .ok name) (hother : ValidName other) (hne : name ≠ other)
    (hC : Consistent sectors d (Function.update blankTable 2 e)) :
    evaluate sectors .outOfRange (create 1 other kind) d =
        (.ok 3, putRecord d 3 (newEntry 1 other kind)) ∧
      Consistent sectors (putRecord d 3 (newEntry 1 other kind))
        (pair e (newEntry 1 other kind)) := by
  have hnone := not_isChild_oneFile hname hne
  exact ⟨create_evaluate_done hC hother one_inTable rfl hnone (isLeast_oneFile hlive),
    hC.create hkind hother one_inTable rfl hnone three_mem rfl⟩

end OneFile

section Pair

variable (e e' x : DiskInode)

theorem pair_two : pair e e' 2 = e := by
  rw [pair, Function.update_of_ne (by decide), Function.update_self]

theorem pair_three : pair e e' 3 = e' := Function.update_self _ _ _

theorem pair_of_ne (h2 : i ≠ 2) (h3 : i ≠ 3) : pair e e' i = blankTable i := by
  rw [pair, Function.update_of_ne h3, Function.update_of_ne h2]

theorem update_pair_two : Function.update (pair e e') 2 x = pair x e' := by
  rw [pair, Function.update_comm (by decide), Function.update_idem]
  rfl

theorem update_pair_three : Function.update (pair e e') 3 x = pair e x := Function.update_idem _ _ _

/-- A run is free of the extents of two files. -/
theorem freeRun_pair {sectors exclude count a : Nat} :
    FreeRun sectors (pair e e') exclude count a ↔ DATA_START ≤ a ∧ a + count ≤ sectors ∧
      (2 ≠ exclude → e.HasExtent → a + count ≤ e.first ∨ e.first + e.sectors ≤ a) ∧
      (3 ≠ exclude → e'.HasExtent → a + count ≤ e'.first ∨ e'.first + e'.sectors ≤ a) := by
  constructor
  · intro h
    have h2 := h.free 2 two_mem
    have h3 := h.free 3 three_mem
    rw [pair_two] at h2
    rw [pair_three] at h3
    exact ⟨h.low, h.high, h2, h3⟩
  · rintro ⟨hlow, hhigh, h2, h3⟩
    refine ⟨hlow, hhigh, fun i hi hne hextent => ?_⟩
    by_cases heq2 : i = 2
    · rw [heq2] at hne
      rw [heq2, pair_two] at hextent ⊢
      exact h2 hne hextent
    by_cases heq3 : i = 3
    · rw [heq3] at hne
      rw [heq3, pair_three] at hextent ⊢
      exact h3 hne hextent
    · have hkind := hextent.1
      rw [pair_of_ne e e' heq2 heq3, blankTable_unused i hi] at hkind
      exact absurd hkind (by decide)

end Pair

/-- A file of one sector. -/
def oneSector (name : String) (start : UInt64) : DiskInode :=
  { newEntry 1 name 1 with startSector := start, sectorCount := 1 }

/-- Files in the sectors 17 and 19. -/
theorem exists_gap : ∃ d, Consistent 32 d (pair (oneSector "f" 17) (oneSector "g" 19)) := by
  obtain ⟨_, hone⟩ := @createFile_formatted 32 (by decide) (lt_wordSize (by decide))
    (fun _ => zeroSector) "f" validName_f
  obtain ⟨_, htwo⟩ := create_oneFile (.inl rfl) (by decide) (nameText_newEntry 1 1 validName_f)
    validName_g (by decide) hone
  have hhoused : Housed 32 (pair (newEntry 1 "f" 1) (newEntry 1 "g" 1)) 2 0 (oneSector "f" 17) :=
    ⟨⟨_, _, rfl⟩, Nat.zero_le _, by decide, fun _ => (freeRun_pair _ _).mpr (by decide)⟩
  have hf := htwo.commitFile two_mem rfl hhoused
    (show (0 : UInt64).toNat ≤ SECTOR_SIZE * 1 from Nat.zero_le _) (DiffersIn.refl _ _)
  rw [update_pair_two] at hf
  have hhoused' : Housed 32 (pair (oneSector "f" 17) (newEntry 1 "g" 1)) 3 0 (oneSector "g" 19) :=
    ⟨⟨_, _, rfl⟩, Nat.zero_le _, by decide, fun _ => (freeRun_pair _ _).mpr (by decide)⟩
  have hg := hf.commitFile three_mem rfl hhoused'
    (show (0 : UInt64).toNat ≤ SECTOR_SIZE * 1 from Nat.zero_le _) (DiffersIn.refl _ _)
  rw [update_pair_three] at hg
  exact ⟨_, hg⟩

/-- One sector fits into the gap between the files, two fit behind them or, if the
second file is left out of account, into the gap, and thirteen do not fit. -/
theorem findExtent_lowest_gap : ∃ d, Consistent 32 d (pair (oneSector "f" 17) (oneSector "g" 19)) ∧
    evaluate 32 .outOfRange (findExtent 32 1 4) d = (.ok 18, d) ∧
    evaluate 32 .outOfRange (findExtent 32 2 4) d = (.ok 20, d) ∧
    evaluate 32 .outOfRange (findExtent 32 2 3) d = (.ok 18, d) ∧
    evaluate 32 .outOfRange (findExtent 32 13 4) d = (.error .noSpace, d) := by
  obtain ⟨d, hC⟩ := exists_gap
  have hsums : ∀ exclude, ∀ count ≤ 2 ^ 55, ∀ sum ∈ searchSums _ exclude count, sum < wordSize :=
    fun exclude count => searchSums_lt hC.device.2 hC.layout.extentsIn exclude
  have hfree : ∀ {exclude count a : Nat},
      FreeRun 32 (pair (oneSector "f" 17) (oneSector "g" 19)) exclude count a ↔
        17 ≤ a ∧ a + count ≤ 32 ∧ (2 ≠ exclude → a + count ≤ 17 ∨ 18 ≤ a) ∧
        (3 ≠ exclude → a + count ≤ 19 ∨ 20 ≤ a) := by
    intro exclude count a
    have hextent : ∀ name start, (oneSector name start).HasExtent :=
      fun _ _ => ⟨rfl, show (1 : UInt32) ≠ 0 by decide⟩
    rw [freeRun_pair]
    simp only [hextent, forall_const]
    rfl
  have hleast : ∀ exclude count s, 0 < count → count ≤ 2 ^ 55 → FreeRun 32 _ exclude count s →
      (∀ a, FreeRun 32 _ exclude count a → s ≤ a) →
      evaluate 32 .outOfRange (findExtent 32 count exclude) d = (.ok s, d) :=
    fun exclude count s hpos hcount hs hlow =>
      ((findExtent_lowest hC exclude hpos (hsums exclude count hcount)).1 s).mpr ⟨hs, hlow⟩
  refine ⟨d, hC, ?_, ?_, ?_, ?_⟩
  · refine hleast 4 1 18 (by decide) (by decide) (hfree.mpr (by omega)) fun a ha => ?_
    have := hfree.mp ha
    omega
  · refine hleast 4 2 20 (by decide) (by decide) (hfree.mpr (by omega)) fun a ha => ?_
    have := hfree.mp ha
    omega
  · refine hleast 3 2 18 (by decide) (by decide) (hfree.mpr (by omega)) fun a ha => ?_
    have := hfree.mp ha
    omega
  · refine (findExtent_lowest hC 4 (by decide) (hsums 4 13 (by decide))).2.mpr fun a ha => ?_
    have := hfree.mp ha
    omega

end Format

/-! ## Whole runs -/

/-- The disks that a fresh filesystem on a device without faults goes through. -/
inductive Reachable (sectors : Nat) : Disk → Prop
  | fresh {d d₀ : Disk} : sectors < wordSize →
      evaluate sectors .outOfRange (mount sectors true) d = (.ok true, d₀) →
      Reachable sectors d₀
  | step {d : Disk} {op : Op} : Reachable sectors d → op.InRange →
      Reachable sectors (step sectors d op)

theorem Reachable.consistent {sectors : Nat} {d : Disk} (h : Reachable sectors d) :
    ∃ T, Consistent sectors d T := by
  induction h with
  | fresh hword hmount =>
      obtain ⟨hsize, rfl⟩ := mount_formats hmount
      exact ⟨_, formatted_consistent hsize hword _⟩
  | step _ hrange ih =>
      obtain ⟨T, hT⟩ := ih
      exact step_consistent hT hrange

theorem Reachable.run {sectors : Nat} (ops : List Op) : ∀ {d : Disk}, Reachable sectors d →
    (∀ op ∈ ops, op.InRange) → Reachable sectors (ops.foldl (Fs.step sectors) d) := by
  induction ops with
  | nil => exact fun h _ => h
  | cons op ops ih =>
      intro d h hrange
      exact ih (h.step (hrange op List.mem_cons_self))
        fun op' hop' => hrange op' (List.mem_cons_of_mem _ hop')

/-- A device of 32 sectors with the empty file `f`. -/
def oneFile : Disk := step 32 (formatted 32 fun _ => zeroSector) (.createFile 1 "f")

theorem mount_zeros : evaluate 32 .outOfRange (mount 32 true) (fun _ => zeroSector) =
    (.ok true, formatted 32 fun _ => zeroSector) :=
  mount_evaluate_of_no_magic (by decide) (by decide)

theorem reachable_oneFile : Reachable 32 oneFile :=
  .step (.fresh (lt_wordSize (by decide)) mount_zeros) trivial

theorem createFile_zeros : evaluate 32 .outOfRange (createFile 1 "f")
      (formatted 32 fun _ => zeroSector) = (.ok 2, oneFile) ∧
    Consistent 32 oneFile (Function.update blankTable 2 (newEntry 1 "f" 1)) := by
  obtain ⟨heval, hC⟩ := @createFile_formatted 32 (by decide) (lt_wordSize (by decide))
    (fun _ => zeroSector) "f" validName_f
  have hstep : oneFile = _ := step_eq (.createFile 1 "f") heval
  rw [hstep]
  exact ⟨heval, hC⟩

/-- **The invariant holds after every run** of operations on a fresh filesystem,
of any length, whether they succeed or fail. -/
theorem run_consistent {sectors : Nat} (hword : sectors < wordSize) {d d₀ : Disk}
    (hmount : evaluate sectors .outOfRange (mount sectors true) d = (.ok true, d₀))
    (ops : List Op) (hrange : ∀ op ∈ ops, op.InRange) :
    ∃ T, Consistent sectors (ops.foldl (step sectors) d₀) T := by
  have hfresh : Reachable sectors d₀ := .fresh hword hmount
  exact (hfresh.run ops hrange).consistent

/-- A directory, a file in it, and a write to that file. -/
theorem run_consistent_threeOps : ∃ d₀,
    evaluate 32 .outOfRange (mount 32 true) (fun _ => zeroSector) = (.ok true, d₀) ∧
    ∃ T, Consistent 32 ([Op.createDir 1 "etc", Op.createFile 2 "motd",
      Op.write 3 0 [72, 105]].foldl (step 32) d₀) T := by
  exact ⟨_, mount_zeros, run_consistent (lt_wordSize (by decide)) mount_zeros _ (by
    intro op hop
    rcases List.mem_cons.mp hop with rfl | hop
    · trivial
    rcases List.mem_cons.mp hop with rfl | hop
    · trivial
    rcases List.mem_cons.mp hop with rfl | hop
    · show 0 + 2 + SECTOR_SIZE - 1 < wordSize
      rw [wordSize]
      decide
    · cases hop)⟩

end GenericKernel.Fs
