import GenericKernel.Fs.Contents

/-!
# The filesystem without its device

`Volume` is what the operations act on, with the device taken out: the table, and
for each file the value of each byte. `Volume.step` needs nothing else, so what
it computes cannot depend on what a device held before.

* a file that grows moves to the least free run, and the bytes of its old extent
  which that run covers become zero;
* a request for 2^32 sectors or more is refused after the move was made on disk,
  so the covered bytes are zero although the file did not move.

`Holds.step` is the refinement. It has one exception, `Undisturbed`: where the run
of a refused request ends inside the file's own extent, the copy has moved bytes
of the file to other positions.
-/

namespace GenericKernel.Fs

open GenericKernel.Lib

/-- The table and the bytes of the files, by inode and position. -/
structure Volume where
  table : Table
  bytes : Nat → Nat → UInt8

/-- `create` would take the record `i`. -/
structure Creates (T : Table) (parent : Nat) (name : String) (i : Nat) : Prop where
  valid : ValidName name
  inside : InTable parent
  directory : (T parent).kind = 2
  vacant : ∀ j, ¬ IsChild T parent name j
  unused : IsLeast {i | i ∈ inodeNumbers ∧ (T i).kind = 0} i

/-- `remove` would clear the record `i`. -/
structure Removes (T : Table) (parent : Nat) (name : String) (i : Nat) : Prop where
  child : IsChild T parent name i
  leaf : ∀ j ∈ inodeNumbers, (T j).kind ≠ 0 → (T j).parent.toNat ≠ i

open Classical in
/-- The first run of free sectors that is long enough. -/
noncomputable def leastRun (sectors : Nat) (T : Table) (inode needed : Nat) : Option Nat :=
  if h : ∃ a, IsLeast {a | FreeRun sectors T inode needed a} a then some h.choose else none

namespace Volume

/-- A formatted device. -/
def blank : Volume := ⟨blankTable, fun _ _ => 0⟩

open Classical in
noncomputable def create (V : Volume) (parent : Nat) (name : String) (kind : UInt8) : Volume :=
  if h : ∃ i, Creates V.table parent name i then
    { V with table := Function.update V.table h.choose (newEntry parent name kind) }
  else V

open Classical in
noncomputable def remove (V : Volume) (parent : Nat) (name : String) : Volume :=
  if h : ∃ i, Removes V.table parent name i then
    { V with table := Function.update V.table h.choose DiskInode.empty }
  else V

/-- The bytes of a file whose new run of `needed` sectors starts at `a`. -/
def moved (V : Volume) (inode a needed p : Nat) : UInt8 :=
  if a ≤ (V.table inode).first + p / SECTOR_SIZE ∧
      (V.table inode).first + p / SECTOR_SIZE < a + needed then 0
  else V.bytes inode p

/-- The gap is zeroed, the data put and the entry committed. -/
def put (V : Volume) (inode : Nat) (e : DiskInode) (bytes : Nat → UInt8) (offset : Nat)
    (data : List UInt8) (newLen : UInt64) : Volume where
  table := Function.update V.table inode { e with len := newLen }
  bytes := Function.update V.bytes inode fun p =>
    if offset ≤ p ∧ p < offset + data.length then data[p - offset]?.getD 0
    else if e.len.toNat ≤ p ∧ p < offset then 0
    else bytes p

noncomputable def store (sectors : Nat) (V : Volume) (inode offset : Nat) (data : List UInt8)
    (newLen : UInt64) : Volume :=
  let needed := sectorsForLen (offset + data.length)
  if inode ∈ inodeNumbers ∧ (V.table inode).kind = 1 then
    if needed ≤ (V.table inode).sectors then
      V.put inode (V.table inode) (V.bytes inode) offset data newLen
    else
      match leastRun sectors V.table inode needed with
      | none => V
      | some a =>
          if needed < 2 ^ 32 then
            V.put inode (relocated (V.table inode) a needed) (V.moved inode a needed) offset data
              newLen
          else { V with bytes := Function.update V.bytes inode (V.moved inode a needed) }
  else V

noncomputable def step (sectors : Nat) (V : Volume) : Op → Volume
  | .createFile parent name => V.create parent name 1
  | .createDir parent name => V.create parent name 2
  | .write inode offset data =>
      V.store sectors inode offset data
        (max (V.table inode).len (UInt64.ofNat (offset + data.length)))
  | .truncate inode len => V.store sectors inode len [] (UInt64.ofNat len)
  | .remove parent name => V.remove parent name

end Volume

/-- A request for `needed` sectors that is refused for its size leaves the bytes
of the file in their places. -/
def Undisturbed (sectors : Nat) (T : Table) (inode needed : Nat) : Prop :=
  inode ∈ inodeNumbers → (T inode).kind = 1 → 2 ^ 32 ≤ needed →
    ∀ a, IsLeast {a | FreeRun sectors T inode needed a} a →
    a + needed ≤ (T inode).first ∨ (T inode).first + (T inode).sectors ≤ a + needed

/-- The disk `d` holds the volume. -/
structure Holds (sectors : Nat) (d : Disk) (V : Volume) : Prop where
  consistent : Consistent sectors d V.table
  bytes : ∀ i ∈ inodeNumbers, (V.table i).kind = 1 → ∀ p < (V.table i).len.toNat,
    flatByte d (V.table i).first p = V.bytes i p

/-! ## What the choices come to -/

section Choices

variable {sectors inode needed parent i a : Nat} {T : Table} {name : String} {V : Volume}
  {offset : Nat} {data : List UInt8} {newLen : UInt64}

theorem leastRun_eq_some (h : IsLeast {a | FreeRun sectors T inode needed a} a) :
    leastRun sectors T inode needed = some a := by
  have hex : ∃ a, IsLeast {a | FreeRun sectors T inode needed a} a := ⟨a, h⟩
  rw [leastRun, dif_pos hex, hex.choose_spec.unique h]

theorem leastRun_eq_none (h : ∀ a, ¬ FreeRun sectors T inode needed a) :
    leastRun sectors T inode needed = none :=
  dif_neg fun ⟨a, ha⟩ => h a ha.1

theorem Volume.create_eq (h : Creates V.table parent name i) (kind : UInt8) :
    V.create parent name kind =
      { V with table := Function.update V.table i (newEntry parent name kind) } := by
  have hex : ∃ i, Creates V.table parent name i := ⟨i, h⟩
  rw [Volume.create, dif_pos hex, hex.choose_spec.unused.unique h.unused]

theorem Volume.remove_eq (hN : Names V.table) (h : Removes V.table parent name i) :
    V.remove parent name = { V with table := Function.update V.table i DiskInode.empty } := by
  have hex : ∃ i, Removes V.table parent name i := ⟨i, h⟩
  rw [Volume.remove, dif_pos hex, hN.unique.child hex.choose_spec.child h.child]

section Store

variable (hi : inode ∈ inodeNumbers) (hkind : (V.table inode).kind = 1)

include hi hkind

theorem Volume.store_fits (h : sectorsForLen (offset + data.length) ≤ (V.table inode).sectors) :
    V.store sectors inode offset data newLen =
      V.put inode (V.table inode) (V.bytes inode) offset data newLen := by
  rw [Volume.store, if_pos ⟨hi, hkind⟩, if_pos h]

theorem Volume.store_full (h : (V.table inode).sectors < sectorsForLen (offset + data.length))
    (hnone : ∀ a, ¬ FreeRun sectors V.table inode (sectorsForLen (offset + data.length)) a) :
    V.store sectors inode offset data newLen = V := by
  rw [Volume.store, if_pos ⟨hi, hkind⟩, if_neg (Nat.not_le.mpr h), leastRun_eq_none hnone]

theorem Volume.store_moved (h : (V.table inode).sectors < sectorsForLen (offset + data.length))
    (hsmall : sectorsForLen (offset + data.length) < 2 ^ 32)
    (ha : IsLeast {a | FreeRun sectors V.table inode (sectorsForLen (offset + data.length)) a} a) :
    V.store sectors inode offset data newLen =
      V.put inode (relocated (V.table inode) a (sectorsForLen (offset + data.length)))
        (V.moved inode a (sectorsForLen (offset + data.length))) offset data newLen := by
  rw [Volume.store, if_pos ⟨hi, hkind⟩, if_neg (Nat.not_le.mpr h), leastRun_eq_some ha]
  exact if_pos hsmall

theorem Volume.store_tooLarge (h : (V.table inode).sectors < sectorsForLen (offset + data.length))
    (hlarge : 2 ^ 32 ≤ sectorsForLen (offset + data.length))
    (ha : IsLeast {a | FreeRun sectors V.table inode (sectorsForLen (offset + data.length)) a} a) :
    V.store sectors inode offset data newLen = { V with
      bytes := Function.update V.bytes inode
        (V.moved inode a (sectorsForLen (offset + data.length))) } := by
  rw [Volume.store, if_pos ⟨hi, hkind⟩, if_neg (Nat.not_le.mpr h), leastRun_eq_some ha]
  exact if_neg (Nat.not_lt.mpr hlarge)

end Store

end Choices

/-! ## The refinement -/

section Refinement

variable {sectors inode offset : Nat} {d d' : Disk} {V : Volume} {data : List UInt8}
  {newLen : UInt64}

/-- A record write that leaves the other files alone. -/
theorem Holds.record {e : DiskInode} (h : Holds sectors d V) (hi : inode ∈ inodeNumbers)
    (hempty : e.len = 0)
    (hC : Consistent sectors (putRecord d inode e) (Function.update V.table inode e)) :
    Holds sectors (putRecord d inode e) { V with table := Function.update V.table inode e } := by
  refine ⟨hC, fun j hj hfile p hp => ?_⟩
  dsimp only at hfile hp ⊢
  by_cases heq : j = inode
  · rw [heq, Function.update_self, hempty] at hp
    exact absurd hp (Nat.not_lt_zero p)
  · rw [Function.update_of_ne heq] at hfile hp ⊢
    rw [← h.bytes j hj hfile p hp]
    refine h.consistent.flatByte_frame hj hfile heq hp fun s hs _ => ?_
    exact putRecord_outside _ _ (inTable_of_mem hi) (.inr hs)

/-- `create` on the disk and on the volume take the same way. -/
theorem Volume.create_cases {parent : Nat} {name : String} {kind : UInt8}
    {r : Except VfsError Nat} (hc : Created d V.table parent name kind r d') :
    (V.create parent name kind = V ∧ d' = d ∧ ∃ e, r = .error e) ∨
    ∃ i, Creates V.table parent name i ∧ r = .ok i ∧
      d' = putRecord d i (newEntry parent name kind) ∧ V.create parent name kind =
        { V with table := Function.update V.table i (newEntry parent name kind) } := by
  have hrefused : (∀ i, ¬ Creates V.table parent name i) → V.create parent name kind = V :=
    fun hnot => dif_neg fun ⟨i, hi⟩ => hnot i hi
  cases hc with
  | badName hbad =>
      refine .inl ⟨hrefused fun i hi => ?_, rfl, _, rfl⟩
      rw [validateDiskName_eq_ok.mpr hi.valid] at hbad
      cases hbad
  | badParent hbad =>
      exact .inl ⟨hrefused fun i hi => hbad ⟨hi.inside, hi.directory⟩, rfl, _, rfl⟩
  | taken hchild => exact .inl ⟨hrefused fun i hi => hi.vacant _ hchild, rfl, _, rfl⟩
  | full _ hall =>
      exact .inl ⟨hrefused fun i hi => hall i hi.unused.1.1 hi.unused.1.2, rfl, _, rfl⟩
  | done hvalid hin hdir hnone hleast =>
      have hcreates : Creates V.table parent name _ := ⟨hvalid, hin, hdir, hnone, hleast⟩
      exact .inr ⟨_, hcreates, rfl, rfl, Volume.create_eq hcreates kind⟩

theorem Volume.remove_cases {parent : Nat} {name : String} {r : Except VfsError Unit}
    (hN : Names V.table) (hr : Removed d V.table parent name r d') :
    (V.remove parent name = V ∧ d' = d) ∨
    ∃ i, Removes V.table parent name i ∧ d' = putRecord d i DiskInode.empty ∧
      V.remove parent name = { V with table := Function.update V.table i DiskInode.empty } := by
  have hrefused : (∀ i, ¬ Removes V.table parent name i) → V.remove parent name = V :=
    fun hnot => dif_neg fun ⟨i, hi⟩ => hnot i hi
  cases hr with
  | missing hnone => exact .inl ⟨hrefused fun i hi => hnone i hi.child, rfl⟩
  | @notEmpty i j hchild _ hj hlive hparent =>
      refine .inl ⟨hrefused fun i' hi => ?_, rfl⟩
      rw [hN.unique.child hchild hi.child] at hparent
      exact hi.leaf j hj hlive hparent
  | done hchild hleaf =>
      have hremoves : Removes V.table parent name _ := ⟨hchild, hleaf⟩
      exact .inr ⟨_, hremoves, rfl, Volume.remove_eq hN hremoves⟩

variable (h : Holds sectors d V)
include h

theorem Holds.create {parent : Nat} {name : String} {kind : UInt8} {r : Except VfsError Nat} (hkind : kind = 1 ∨ kind = 2)
    (hc : Created d V.table parent name kind r d') :
    Holds sectors d' (V.create parent name kind) := by
  rcases Volume.create_cases hc with ⟨hsame, rfl, _⟩ | ⟨i, hi, _, rfl, hnew⟩
  · rw [hsame]
    exact h
  · rw [hnew]
    have hunused := hi.unused.1
    exact h.record hunused.1 rfl (h.consistent.create hkind hi.valid hi.inside hi.directory
      hi.vacant hunused.1 hunused.2)

theorem Holds.remove {parent : Nat} {name : String} {r : Except VfsError Unit} (hr : Removed d V.table parent name r d') :
    Holds sectors d' (V.remove parent name) := by
  rcases Volume.remove_cases h.consistent.names hr with ⟨hsame, rfl⟩ | ⟨i, hi, rfl, hnew⟩
  · rw [hsame]
    exact h
  · rw [hnew]
    exact h.record hi.child.number rfl (h.consistent.remove hi.child.number hi.leaf)

/-- A file after `ensure_capacity`. -/
theorem Holds.flatByte_moved (hi : inode ∈ inodeNumbers)
    (hkind : (V.table inode).kind = 1) {a needed p : Nat} (hp : p < (V.table inode).len.toNat) :
    flatByte (relocate d (V.table inode) a needed) a p = V.moved inode a needed p := by
  have hindex : p / SECTOR_SIZE < (V.table inode).sectors :=
    Nat.div_lt_of_lt_mul (lt_of_lt_of_le hp (h.consistent.layout.holds inode hi hkind))
  rw [flatByte_relocate d _ hindex, Volume.moved, h.bytes inode hi hkind p hp]

/-- The operation went through with the entry `e`. -/
theorem Holds.put {e : DiskInode} {d₁ : Disk} {bytes : Nat → UInt8}
    (hrange : offset + data.length + SECTOR_SIZE - 1 < wordSize) (hi : inode ∈ inodeNumbers)
    (hkind : (V.table inode).kind = 1)
    (hcapacity : Capacity sectors d V.table inode (sectorsForLen (offset + data.length)) (.ok e) d₁)
    (hnew : newLen.toNat ≤ max (V.table inode).len.toNat (offset + data.length))
    (hbytes : ∀ p < (V.table inode).len.toNat, flatByte d₁ e.first p = bytes p) :
    Holds sectors (putRecord (stored d₁ e offset data) inode { e with len := newLen })
      (V.put inode e bytes offset data newLen) := by
  obtain ⟨he, hroom, hold, hd⟩ := hcapacity.room h.consistent hrange hi hkind
  obtain ⟨start, count, hsame⟩ := he.same
  have hlen : e.len = (V.table inode).len := by rw [hsame]
  have hfit : newLen.toNat ≤ SECTOR_SIZE * e.sectors := le_trans hnew (max_le hold hroom)
  refine ⟨h.consistent.commitFile hi hkind he hfit hd, fun j hj hfile p hp => ?_⟩
  dsimp only [Volume.put] at hfile hp ⊢
  by_cases heq : j = inode
  · subst heq
    rw [Function.update_self] at hp ⊢
    rw [Function.update_self]
    replace hp : p < newLen.toNat := hp
    have hindex : p / SECTOR_SIZE < e.sectors :=
      Nat.div_lt_of_lt_mul (lt_of_lt_of_le hp hfit)
    have hlow := (he.free (Nat.zero_lt_of_lt hindex)).low
    refine (flatByte_congr (putRecord_outside _ _ (inTable_of_mem hj)
      (.inr (le_trans hlow (Nat.le_add_right _ _))))).trans ?_
    rw [flatByte_stored]
    by_cases hput : offset ≤ p ∧ p < offset + data.length
    · rw [if_pos hput, if_pos hput]
    by_cases hgap : e.len.toNat ≤ p ∧ p < offset
    · rw [if_neg hput, if_neg hput, if_pos hgap, if_pos hgap]
    -- what is neither data nor gap was in the file before
    · rw [if_neg hput, if_neg hput, if_neg hgap, if_neg hgap]
      rw [hlen] at hgap
      exact hbytes p (by omega)
  · rw [Function.update_of_ne heq] at hfile hp ⊢
    rw [Function.update_of_ne heq, ← h.bytes j hj hfile p hp]
    refine h.consistent.flatByte_frame hj hfile heq hp fun s hs hnot => ?_
    rw [putRecord_outside _ _ (inTable_of_mem hi) (.inr hs)]
    exact hd s hnot

/-- The operation was refused after the move was made. -/
theorem Holds.tooLarge {needed a : Nat} (hi : inode ∈ inodeNumbers)
    (hless : (V.table inode).sectors < needed)
    (ha : IsLeast {a | FreeRun sectors V.table inode needed a} a)
    (hplace : a + needed ≤ (V.table inode).first ∨
      (V.table inode).first + (V.table inode).sectors ≤ a + needed) :
    Holds sectors (relocate d (V.table inode) a needed)
      { V with bytes := Function.update V.bytes inode (V.moved inode a needed) } := by
  have hd := @relocate_differsIn (perfect sectors) d V.table inode needed a hless ha.1
  refine ⟨h.consistent.dirty hd, fun j hj hfile p hp => ?_⟩
  dsimp only at hfile hp ⊢
  by_cases heq : j = inode
  · subst heq
    rw [Function.update_self, Volume.moved, ← h.bytes j hj hfile p hp]
    have hindex : p / SECTOR_SIZE < (V.table j).sectors :=
      Nat.div_lt_of_lt_mul (lt_of_lt_of_le hp (h.consistent.layout.holds j hj hfile))
    have hrun := h.consistent.layout.freeRun hj
      (hasExtent_of_pos hfile (Nat.zero_lt_of_lt hindex))
    have hbefore := least_freeRun_before_or_past ha hrun.low hrun.free
    by_cases hcover : a ≤ (V.table j).first + p / SECTOR_SIZE ∧
        (V.table j).first + p / SECTOR_SIZE < a + needed
    · -- the run covers the extent as a whole, so a copied sector was zeroed before
      rw [if_pos hcover]
      refine flatByte_zeroSector ?_
      unfold relocate copyBlocks
      by_cases hcopied : a ≤ (V.table j).first + p / SECTOR_SIZE ∧
          (V.table j).first + p / SECTOR_SIZE < a + (V.table j).sectors
      · rw [if_pos hcopied]
        refine if_pos ?_
        generalize p / SECTOR_SIZE = k at hindex hcover hcopied ⊢
        omega
      · rw [if_neg hcopied]
        exact if_pos hcover
    · rw [if_neg hcover]
      refine flatByte_congr ?_
      unfold relocate copyBlocks
      rw [if_neg (by omega)]
      exact if_neg hcover
  · rw [Function.update_of_ne heq, ← h.bytes j hj hfile p hp]
    exact h.consistent.flatByte_frame hj hfile heq hp fun s _ hnot => hd s hnot

/-- `write` and `truncate`. -/
theorem Holds.store {α : Type} {value : α} {r : Except VfsError α}
    (hrange : offset + data.length + SECTOR_SIZE - 1 < wordSize)
    (hnew : newLen.toNat ≤ max (V.table inode).len.toNat (offset + data.length))
    (hplace : Undisturbed sectors V.table inode (sectorsForLen (offset + data.length)))
    (hs : Stored sectors d V.table inode offset data newLen value r d') :
    Holds sectors d' (V.store sectors inode offset data newLen) := by
  cases hs with
  | notFile hnot =>
      rw [Volume.store, if_neg hnot]
      exact h
  | noRoom hi hkind hcapacity =>
      cases hcapacity with
      | full hless hnone =>
          rw [Volume.store_full hi hkind hless hnone]
          exact h
      | tooLarge hless hlarge ha =>
          rw [Volume.store_tooLarge hi hkind hless hlarge ha]
          exact h.tooLarge hi hless ha (hplace hi hkind hlarge _ ha)
  | done hi hkind hcapacity =>
      cases hcapacity with
      | fits hfits =>
          rw [Volume.store_fits hi hkind hfits]
          exact h.put hrange hi hkind (.fits hfits) hnew (h.bytes inode hi hkind)
      | moved hless hsmall ha =>
          rw [Volume.store_moved hi hkind hless hsmall ha]
          refine h.put hrange hi hkind (.moved hless hsmall ha) hnew fun p hp => ?_
          rw [relocated_first h.consistent.device.2 ha.1]
          exact h.flatByte_moved hi hkind hp

end Refinement

/-- `Undisturbed`, for an operation. -/
def Op.Undisturbed (sectors : Nat) (T : Table) : Op → Prop
  | write inode offset data => Fs.Undisturbed sectors T inode (sectorsForLen (offset + data.length))
  | truncate inode len => Fs.Undisturbed sectors T inode (sectorsForLen len)
  | _ => True

/-- **The step of the disk refines the step of the volume.** -/
theorem Holds.step {sectors : Nat} {d : Disk} {V : Volume} {op : Op} (h : Holds sectors d V)
    (hrange : op.InRange) (hplace : op.Undisturbed sectors V.table) :
    Holds sectors (step sectors d op) (V.step sectors op) := by
  obtain ⟨r, hdoes, _⟩ := step_does op h.consistent hrange
  cases op with
  | createFile parent name => exact h.create (.inl rfl) hdoes
  | createDir parent name => exact h.create (.inr rfl) hdoes
  | write inode offset data =>
      refine h.store hrange ?_ hplace hdoes
      rw [toNat_max, toNat_ofNat_end hrange]
  | truncate inode len =>
      refine h.store hrange ?_ hplace hdoes
      rw [toNat_ofNat_end hrange]
      exact le_max_right _ _
  | remove parent name => exact h.remove hdoes

theorem Holds.contents {sectors inode : Nat} {d : Disk} {V : Volume} (h : Holds sectors d V)
    (hi : inode ∈ inodeNumbers) (hfile : (V.table inode).kind = 1) :
    contents d inode = (List.range (V.table inode).len.toNat).map (V.bytes inode) := by
  rw [contents_eq (h.consistent.shows inode (inTable_of_mem hi)) hfile, flatBytes]
  refine List.map_congr_left fun p hp => ?_
  rw [Nat.zero_add]
  exact h.bytes inode hi hfile p (List.mem_range.mp hp)

/-- A fresh filesystem, whatever was on the device. -/
theorem holds_formatted {sectors : Nat} (hsize : DATA_START + 1 < sectors)
    (hword : sectors < wordSize) (d : Disk) : Holds sectors (formatted sectors d) .blank := by
  refine ⟨formatted_consistent hsize hword d, fun i hi hfile => ?_⟩
  have hunused : (blankTable i).kind = 1 := hfile
  rw [blankTable_unused i hi] at hunused
  exact absurd hunused (by decide)

end GenericKernel.Fs
