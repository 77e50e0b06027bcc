import GenericKernel.Fs.Contents

/-!
# Operations commit with one inode write

The device may now fail calls, and an operation may be cut off between two
calls. `Atomic` says what is left on disk in any case: the inode table is the
old one or that of the completed operation, the superblock and all other inodes
are as before, and the on-disk invariant holds.

Everything an operation does before its inode write stays in private sectors, so
this holds wherever it stops. The one exception is `create`, which takes a failed
lookup for a free name; `LookupWorks` excludes it, and `execution_atomic_iff` proves
the rest.
-/

namespace GenericKernel.Fs

open GenericKernel.Lib

/-- A device that may fail the calls with these numbers. -/
def faulty (sectors : Nat) (faults : Nat → Prop) : Env Sector BlockError :=
  ⟨sectors, .outOfRange, fun _ => True, faults⟩

namespace Op

/-- The inode the operation is about. -/
def Touches (T : Table) : Op → Nat → Prop
  | createFile _ _, j => IsLeast {i | i ∈ inodeNumbers ∧ (T i).kind = 0} j
  | createDir _ _, j => IsLeast {i | i ∈ inodeNumbers ∧ (T i).kind = 0} j
  | write inode _ _, j => j = inode
  | truncate inode _, j => j = inode
  | remove parent name, j => IsChild T parent name j

/-- No read of a lookup that would find the name fails, unless all records are in
use. Call 0 reads the parent, call `j` the record `j + 1`. -/
def LookupWorks (T : Table) (faults : Nat → Prop) : Op → Prop
  | createFile parent name => ∀ i, IsChild T parent name i →
      (∃ u ∈ inodeNumbers, (T u).kind = 0) → ∀ j, 0 < j → j < i → ¬ faults j
  | createDir parent name => ∀ i, IsChild T parent name i →
      (∃ u ∈ inodeNumbers, (T u).kind = 0) → ∀ j, 0 < j → j < i → ¬ faults j
  | _ => True

end Op

/-- What may be on disk when the operation ends or is cut off. -/
structure Atomic (sectors : Nat) (d : Disk) (T : Table) (op : Op) (d' : Disk) : Prop where
  table : (∀ s, 0 < s → s < DATA_START → d' s = d s) ∨
    (∀ s, 0 < s → s < DATA_START → d' s = step sectors d op s)
  superblock : d' 0 = d 0
  others : ∀ j, InTable j → ¬ op.Touches T j →
    record d' j = record d j ∧ contents d' j = contents d j
  invariant : ∃ T', Consistent sectors d' T'

section Atomic

variable {sectors inode : Nat} {d d' : Disk} {T : Table} {op : Op}

/-- A file whose record and sectors are untouched has its contents. -/
theorem contents_frame (h : Consistent sectors d T) {j : Nat} (hj : InTable j) (hne : j ≠ inode)
    (hrecord : record d' j = record d j)
    (hdata : ∀ s, DATA_START ≤ s → ¬ Private T inode s → d' s = d s) :
    contents d' j = contents d j := by
  unfold contents
  rw [hrecord, h.shows j hj]
  by_cases hfile : (T j).kind = 1
  · show (if _ then _ else _) = (if _ then _ else _)
    rw [if_pos hfile, if_pos hfile]
    have hmem : j ∈ inodeNumbers := by
      refine mem_inodeNumbers.mpr ⟨?_, hj.2⟩
      by_contra hlt
      obtain rfl : j = 1 := by
        have := hj.1
        omega
      rw [h.names.root] at hfile
      exact absurd hfile (by decide)
    refine List.ext_getElem? fun p => ?_
    by_cases hp : p < (T j).len.toNat
    · rw [getElem?_flatBytes _ _ _ hp, getElem?_flatBytes _ _ _ hp, Nat.zero_add]
      exact congrArg some (h.flatByte_frame hmem hfile hne hp hdata)
    · rw [List.getElem?_eq_none (by rw [length_flatBytes]; omega),
        List.getElem?_eq_none (by rw [length_flatBytes]; omega)]
  · show (if _ then _ else _) = (if _ then _ else _)
    rw [if_neg hfile, if_neg hfile]

/-- Before the commit. -/
theorem Consistent.atomic_dirty (h : Consistent sectors d T)
    (hd : DiffersIn (Private T inode) d d') (htouch : op.Touches T inode) :
    Atomic sectors d T op d' where
  table := .inl fun s _ hs => differsIn_metadata hd hs
  superblock := differsIn_metadata hd (by decide)
  others j hj hnot := by
    have hne : j ≠ inode := fun heq => hnot (heq ▸ htouch)
    have hrecord : record d' j = record d j :=
      record_congr hj fun s _ hs => differsIn_metadata hd hs
    exact ⟨hrecord, contents_frame h hj hne hrecord fun s _ hs => hd s hs⟩
  invariant := ⟨T, h.dirty hd⟩

/-- Nothing done at all. -/
theorem Consistent.atomic_refl (h : Consistent sectors d T) : Atomic sectors d T op d where
  table := .inl fun _ _ _ => rfl
  superblock := rfl
  others _ _ _ := ⟨rfl, rfl⟩
  invariant := ⟨T, h⟩

/-- An inode write does the same to two disks with the same table. -/
theorem putRecord_table (e : DiskInode) (hi : InTable inode)
    (h : ∀ s, 0 < s → s < DATA_START → d' s = d s) :
    ∀ s, 0 < s → s < DATA_START → putRecord d' inode e s = putRecord d inode e s := by
  intro s hs hs'
  have hbounds := inodeSector_bounds hi
  unfold putRecord
  rw [h _ hbounds.1 hbounds.2]
  by_cases heq : s = inodeSector (inode - 1)
  · rw [heq, Function.update_self, Function.update_self]
  · rw [Function.update_of_ne heq, Function.update_of_ne heq]
    exact h s hs hs'

/-- After the commit. -/
theorem Consistent.atomic_commit {e : DiskInode} (h : Consistent sectors d T) (hi : InTable inode)
    (hd : DiffersIn (Private T inode) d d') (htouch : op.Touches T inode)
    (hafter : ∀ s, 0 < s → s < DATA_START → step sectors d op s = putRecord d inode e s)
    (hC : ∃ T', Consistent sectors (putRecord d' inode e) T') :
    Atomic sectors d T op (putRecord d' inode e) where
  table := by
    refine .inr fun s hs hs' => ?_
    rw [hafter s hs hs']
    exact putRecord_table e hi (fun s _ hs => differsIn_metadata hd hs) s hs hs'
  superblock := (putRecord_outside d' e hi (.inl rfl)).trans (differsIn_metadata hd (by decide))
  others j hj hnot := by
    have hne : j ≠ inode := fun heq => hnot (heq ▸ htouch)
    have hrecord : record (putRecord d' inode e) j = record d j :=
      (record_putRecord_of_ne d' e hi hj hne).trans
        (record_congr hj fun s _ hs => differsIn_metadata hd hs)
    refine ⟨hrecord, contents_frame h hj hne hrecord fun s hlow hs => ?_⟩
    rw [putRecord_outside d' e hi (.inr hlow)]
    exact hd s hs
  invariant := hC

end Atomic

/-! ## Executions -/

section Executions

variable {sectors inode offset parent : Nat} {faults : Nat → Prop} {d : Disk} {T : Table}
  {name : String} {data : List UInt8} {log : List (Event (@BlockOp.Reply Purpose Sector BlockError))}
  {s' : DeviceState Sector}

section Consistent

variable (h : Consistent sectors d T)
include h

/-- `create` leaves the disk alone or commits the new record. -/
theorem create_exec {kind : UInt8} {o : Outcome Empty (Except VfsError Nat)}
    (hlookup : ∀ i, IsChild T parent name i → (∃ u ∈ inodeNumbers, (T u).kind = 0) →
      ∀ j, 0 < j → j < i → ¬ faults j)
    (hexec : Exec ((faulty sectors faults).spec Purpose) (create parent name kind).run ⟨d, 0⟩ log
      o s') :
    s'.disk = d ∨ ∃ i, Created d T parent name kind (.ok i)
        (putRecord d i (newEntry parent name kind)) ∧
      s'.disk = putRecord d i (newEntry parent name kind) := by
  let E : Env Sector BlockError := { faulty sectors faults with
    inv := fun d' => d' = d ∨ ∃ i, Created d T parent name kind (.ok i)
        (putRecord d i (newEntry parent name kind)) ∧
      d' = putRecord d i (newEntry parent name kind) }
  have hm : Mounted E d T := Consistent.mounted h
  obtain ⟨r, d', hcreated, hruns⟩ := @create_runsFrom E d T parent name (.inl rfl) hm.low h.shows
    h.names.named 0 kind (fun i hi hu j hj hlt => hlookup i hi hu j hj (by omega))
    fun i hi => .inr ⟨i, hi, rfl⟩
  have hd' : E.inv d' := by
    cases hcreated with
    | badName _ => exact .inl rfl
    | badParent _ => exact .inl rfl
    | taken _ => exact .inl rfl
    | full _ _ => exact .inl rfl
    | done hvalid hin hdir hnone hleast =>
        exact .inr ⟨_, .done hvalid hin hdir hnone hleast, rfl⟩
  exact hruns.exec hd' hexec

/-- Either way the operation was atomic. -/
theorem create_atomic {kind : UInt8} {op : Op} {d' : Disk} (hkind : kind = 1 ∨ kind = 2)
    (hstep : ∀ r d', evaluate sectors .outOfRange (create parent name kind) d = (r, d') →
      step sectors d op = d')
    (htouch : ∀ i, IsLeast {i | i ∈ inodeNumbers ∧ (T i).kind = 0} i → op.Touches T i)
    (hd' : d' = d ∨ ∃ i, Created d T parent name kind (.ok i)
        (putRecord d i (newEntry parent name kind)) ∧
      d' = putRecord d i (newEntry parent name kind)) : Atomic sectors d T op d' := by
  rcases hd' with rfl | ⟨i, hcreated, rfl⟩
  · exact h.atomic_refl
  · cases hcreated with
    | done hvalid hin hdir hnone hleast =>
        refine h.atomic_commit (inTable_of_mem hleast.1.1) (DiffersIn.refl _ d) (htouch i hleast)
          (fun s _ _ => ?_) ⟨_, h.create hkind hvalid hin hdir hnone hleast.1.1 hleast.1.2⟩
        rw [hstep _ _ (create_evaluate_done h hvalid hin hdir hnone hleast)]

/-- `remove` leaves the disk alone or clears the record. -/
theorem remove_atomic {o : Outcome Empty (Except VfsError Unit)}
    (hexec : Exec ((faulty sectors faults).spec Purpose) (remove parent name).run ⟨d, 0⟩ log
      o s') : Atomic sectors d T (.remove parent name) s'.disk := by
  let E : Env Sector BlockError := { faulty sectors faults with
    inv := fun d' => Atomic sectors d T (.remove parent name) d' }
  have hm : Mounted E d T := Consistent.mounted h
  have hcommit : ∀ i, Removed d T parent name (.ok ()) (putRecord d i DiskInode.empty) →
      E.inv (putRecord d i DiskInode.empty) := by
    intro i hremoved
    generalize hd₁ : putRecord d i DiskInode.empty = d₁ at hremoved
    cases hremoved with
    | @done j hchild hleaf =>
        refine h.atomic_commit (inTable_of_mem hchild.number) (DiffersIn.refl _ d) hchild
          (fun s _ _ => ?_) ⟨_, h.remove hchild.number hleaf⟩
        obtain ⟨r, d₂, hremoved, heval⟩ := remove_evaluate h parent name
        rw [step_eq (.remove parent name) heval]
        cases hremoved with
        | missing hnone => exact absurd hchild (hnone j)
        | notEmpty hchild' _ hk hlive hparent =>
            exact absurd hparent (h.names.unique.child hchild hchild' ▸ hleaf _ hk hlive)
        | done hchild' _ => rw [h.names.unique.child hchild hchild']
  obtain ⟨r, d', hremoved, hruns⟩ := @remove_runs E d T parent name h.atomic_refl hm.low h.shows
    h.names hcommit
  have hd' : E.inv d' := by
    cases hremoved with
    | missing _ => exact h.atomic_refl
    | notEmpty _ _ _ _ _ => exact h.atomic_refl
    | done hchild hleaf => exact hcommit _ (.done hchild hleaf)
  exact (show RunsFrom E 0 _ d r d' from hruns 0).exec hd' hexec

/-- The commit of a file operation. -/
theorem stored_atomic {α : Type} {op : Op} {newLen : UInt64} {value : α} {e : DiskInode}
    {d₁ d₂ : Disk} (hrange : offset + data.length + SECTOR_SIZE - 1 < wordSize)
    (hnew : ∀ k, (T inode).len.toNat ≤ SECTOR_SIZE * k → offset + data.length ≤ SECTOR_SIZE * k →
      newLen.toNat ≤ SECTOR_SIZE * k)
    (hstored : ∃ r, Stored sectors d T inode offset data newLen value r (step sectors d op))
    (htouch : op.Touches T inode) (hi : inode ∈ inodeNumbers) (hkind : (T inode).kind = 1)
    (hcapacity : Capacity sectors d T inode (sectorsForLen (offset + data.length)) (.ok e) d₁)
    (hd₂ : DiffersIn (Private T inode) d d₂) :
    Atomic sectors d T op (putRecord d₂ inode { e with len := newLen }) := by
  have hin := inTable_of_mem hi
  obtain ⟨he, hroom, hold, hput⟩ := hcapacity.room h hrange hi hkind
  refine h.atomic_commit hin hd₂ htouch (fun s hs hs' => ?_)
    ⟨_, h.commitFile hi hkind he (hnew _ hold hroom) hd₂⟩
  obtain ⟨r, hr⟩ := hstored
  rw [(hr.done_of_capacity hi hkind hcapacity).2]
  exact putRecord_table _ hin (fun s _ hs => differsIn_metadata hput hs) s hs hs'

/-- Where a completed file operation ends. -/
theorem Stored.atomic {α : Type} {op : Op} {newLen : UInt64} {value : α}
    {r : Except VfsError α} {d' : Disk}
    (htouch : op.Touches T inode) (hd' : Stored sectors d T inode offset data newLen value r d')
    (hcommit : ∀ e d₁ d₂, inode ∈ inodeNumbers → (T inode).kind = 1 →
      Capacity sectors d T inode (sectorsForLen (offset + data.length)) (.ok e) d₁ →
      DiffersIn (Private T inode) d d₂ →
      Atomic sectors d T op (putRecord d₂ inode { e with len := newLen }))
    (hrange : offset + data.length + SECTOR_SIZE - 1 < wordSize) : Atomic sectors d T op d' := by
  cases hd' with
  | notFile _ => exact h.atomic_refl
  | noRoom _ _ hcapacity =>
      exact h.atomic_dirty (@Capacity.differsIn (perfect sectors) _ _ _ _ _ _ hcapacity) htouch
  | @done e d₁ hi hkind hcapacity =>
      obtain ⟨_, _, _, hd⟩ := hcapacity.room h hrange hi hkind
      exact hcommit e d₁ _ hi hkind hcapacity hd

/-- Every execution is atomic if the lookup of a taken name is not disturbed. -/
theorem atomic_of_lookup {op : Op} {o : Outcome Empty (Except VfsError op.Result)} (hrange : op.InRange) (hlookup : op.LookupWorks T faults)
    (hexec : Exec ((faulty sectors faults).spec Purpose) (op.prog sectors).run ⟨d, 0⟩ log o s') :
    Atomic sectors d T op s'.disk := by
  cases op with
  | createFile parent name =>
      exact create_atomic h (.inl rfl) (fun r d' heval => step_eq _ heval) (fun i hi => hi)
        (create_exec h hlookup hexec)
  | createDir parent name =>
      exact create_atomic h (.inr rfl) (fun r d' heval => step_eq _ heval) (fun i hi => hi)
        (create_exec h hlookup hexec)
  | write inode offset data =>
      let E : Env Sector BlockError := { faulty sectors faults with
        inv := fun d' => Atomic sectors d T (.write inode offset data) d' }
      have hm : Mounted E d T := Consistent.mounted h
      obtain ⟨r₀, hstored₀, _⟩ := step_does (.write inode offset data) h hrange
      have hcommit := fun e d₁ d₂ hi hkind hcapacity hd₂ => @stored_atomic sectors inode offset d T
        data h Nat (.write inode offset data) _ data.length e d₁ d₂ hrange (write_newLen_le hrange)
        ⟨r₀, hstored₀⟩ rfl hi hkind hcapacity hd₂
      obtain ⟨r, d', hstored, hruns⟩ := @write_runs E d T inode offset data hm h.names.root hrange
        (fun d' hd' => h.atomic_dirty hd' rfl) hcommit
      exact (show RunsFrom E 0 _ d r d' from hruns 0).exec
        (hstored.atomic h rfl hcommit hrange) hexec
  | truncate inode len =>
      let E : Env Sector BlockError := { faulty sectors faults with
        inv := fun d' => Atomic sectors d T (.truncate inode len) d' }
      have hm : Mounted E d T := Consistent.mounted h
      obtain ⟨r₀, hstored₀, _⟩ := step_does (.truncate inode len) h hrange
      have hcommit := fun e d₁ d₂ hi hkind hcapacity hd₂ => @stored_atomic sectors inode len d T
        [] h Unit (.truncate inode len) _ () e d₁ d₂ hrange (truncate_newLen_le hrange)
        ⟨r₀, hstored₀⟩ rfl hi hkind hcapacity hd₂
      obtain ⟨r, d', hstored, hruns⟩ := @truncate_runs E d T inode len hm h.names.root hrange
        (fun d' hd' => h.atomic_dirty hd' rfl) hcommit
      exact (show RunsFrom E 0 _ d r d' from hruns 0).exec
        (hstored.atomic h rfl hcommit hrange) hexec
  | remove parent name => exact remove_atomic h hexec

/-! ## The lookup that fails -/

/-- The name of a child is valid. -/
theorem Consistent.validName {i : Nat} (hchild : IsChild T parent name i) : ValidName name := by
  obtain ⟨text, htext, hvalid⟩ := h.names.name i hchild.number hchild.live
  rw [hchild.name] at htext
  rw [Except.ok.inj htext]
  exact hvalid

end Consistent

/-- A record that cannot be read. -/
theorem readInode_fault {E : Env Sector BlockError} {c : Nat} (hfault : E.faults c)
    (hi : InTable inode) : CanEnd E (readInode inode) ⟨d, c⟩ (.error .io) ⟨d, c + 1⟩ := by
  have hread : CanEnd E (readSector (inodeSector (inode - 1))) ⟨d, c⟩ (.error .io) ⟨d, c + 1⟩ :=
    CanEnd.readBlock_fault hfault mapBlock Purpose.metadata _ BlockError.io
  unfold readInode
  rw [inodeIndex_of_inTable hi]
  exact (CanEnd.ofExcept _ _).bind hread.bind_error

/-- A scan that cannot read its record `a + n`. -/
theorem scan_fault {E : Env Sector BlockError} {β : Type} (hlow : DATA_START ≤ E.size)
    (hT : Shows d T) (visit : Nat → DiskInode → Except VfsError (Option β)) (rest : List Nat)
    {n : Nat} : ∀ {a c : Nat}, (∀ i, a ≤ i → i ≤ a + n → InTable i) →
      (∀ i, a ≤ i → i < a + n → visit i (T i) = .ok none) → E.faults (c + n) →
      CanEnd E (scan visit (List.range' a n ++ (a + n) :: rest)) ⟨d, c⟩ (.error .io)
        ⟨d, c + n + 1⟩ := by
  induction n with
  | zero =>
      intro a c hin _ hfault
      exact (readInode_fault hfault (hin a (le_refl a) (le_refl a))).bind_error
  | succ n ih =>
      intro a c hin hnone hfault
      have ha := hin a (le_refl a) (by omega)
      have hread := readInode_reads (E := Env.perfect E.size E.outOfRange) (d := d) trivial hlow ha
      rw [hT a ha] at hread
      have hcount : c + (n + 1) = c + 1 + n := by omega
      have hlast : a + (n + 1) = a + 1 + n := by omega
      rw [hcount] at hfault ⊢
      rw [hlast, List.range'_succ, List.cons_append]
      have hrest := @ih (a + 1) (c + 1) (fun i hi hle => hin i (by omega) (by omega))
        (fun i hi hlt => hnone i (by omega) (by omega)) hfault
      refine (hread.canEnd c).bind ?_
      rw [hnone a (le_refl a) (by omega)]
      exact (CanEnd.ofExcept _ _).bind hrest

/-- A lookup that cannot read record `j + 1`, with no child of that name before. -/
theorem findChild_fault {j : Nat} (h : Consistent sectors d T)
    (hnone : ∀ i ≤ j, ¬ IsChild T parent name i) (hj : 0 < j) (hlast : j < INODE_COUNT)
    (hfault : faults j) :
    CanEnd (faulty sectors faults) (findChild parent name) ⟨d, 1⟩ (.error .io) ⟨d, j + 1⟩ := by
  have hm : Mounted (perfect sectors) d T := Consistent.mounted h
  have hskip : ∀ k, 2 ≤ k → k < 2 + (j - 1) → isChild parent name k (T k) = .ok none := by
    intro k hk hk'
    have hmem : k ∈ inodeNumbers := mem_inodeNumbers.mpr ⟨hk, by omega⟩
    obtain ⟨result, hresult⟩ := @Named.isChild_ok T parent name h.names.named k hmem
    cases result with
    | none => exact hresult
    | some b => exact absurd (isChild_found hresult hmem).2 (hnone k (by omega))
  have hcall : 1 + (j - 1) = j := by omega
  have hscan := @scan_fault d T (faulty sectors faults) Nat hm.low h.shows (isChild parent name)
    (List.range' (2 + (j - 1) + 1) (INODE_COUNT - 1 - (j - 1) - 1)) (j - 1) 2 1
    (fun k hk hk' => ⟨by omega, by omega⟩) hskip (by rw [hcall]; exact hfault)
  have hnumbers : List.range' 2 (j - 1) ++ (2 + (j - 1)) ::
      List.range' (2 + (j - 1) + 1) (INODE_COUNT - 1 - (j - 1) - 1) = inodeNumbers := by
    rw [← List.range'_succ, List.range'_append_1]
    exact congrArg (List.range' 2) (by omega)
  rw [hnumbers, hcall] at hscan
  exact hscan.bind_error

/-- A `create` that could not read record `j + 1` goes on as if the name were free. -/
theorem create_blind {j u : Nat} {kind : UInt8} (h : Consistent sectors d T)
    (hvalid : ValidName name) (hin : InTable parent) (hdir : (T parent).kind = 2)
    (hnone : ∀ i ≤ j, ¬ IsChild T parent name i)
    (hleast : IsLeast {i | i ∈ inodeNumbers ∧ (T i).kind = 0} u) (hj : 0 < j)
    (hlast : j < INODE_COUNT) (hfault : faults j) :
    ∃ c, CanEnd (faulty sectors faults) (create parent name kind) ⟨d, 0⟩ (.ok u)
      ⟨putRecord d u (newEntry parent name kind), c⟩ := by
  have hm : Mounted (perfect sectors) d T := Consistent.mounted h
  have hparent := readInode_reads (E := perfect sectors) (d := d) trivial hm.low hin
  rw [h.shows parent hin] at hparent
  have hnew : Runs (perfect sectors) (do
      let inode ← allocateInode
      writeInode inode (newEntry parent name kind)
      pure inode) d (.ok u) (putRecord d u (newEntry parent name kind)) := by
    rcases allocateInode_reads (E := perfect sectors) trivial hm.low h.shows with
      ⟨u', hleast', k, hreads⟩ | ⟨hall, _⟩
    · obtain rfl := hleast.unique hleast'
      exact (hreads.runs trivial).bind
        ((writeInode_runs trivial hm.low (inTable_of_mem hleast.1.1) trivial).bind (Runs.pure u))
    · exact absurd hleast.1.2 (hall u hleast.1.1)
  obtain ⟨c, hnew⟩ := Runs.canEnd (E := faulty sectors faults) hnew (j + 1)
  have hkind : (T parent).nodeKind = .ok .directory := by
    rw [DiskInode.nodeKind, if_neg (by rw [hdir]; decide), if_pos hdir]
  refine ⟨c, ?_⟩
  unfold create
  rw [validateDiskName_eq_ok.mpr hvalid]
  refine (CanEnd.ofExcept _ _).bind ((Reads.canEnd (E := faulty sectors faults) hparent 0).bind ?_)
  rw [hkind]
  exact (CanEnd.ofExcept _ _).bind
    ((findChild_fault h hnone hj hlast hfault).observe.bind hnew)

/-- **A failed read makes a duplicate** if it hides the node of that name. -/
theorem create_duplicate {i j u : Nat} {kind : UInt8} (h : Consistent sectors d T)
    (hchild : IsChild T parent name i) (hleast : IsLeast {i | i ∈ inodeNumbers ∧ (T i).kind = 0} u)
    (hj : 0 < j) (hlt : j < i) (hfault : faults j) :
    ∃ c, CanEnd (faulty sectors faults) (create parent name kind) ⟨d, 0⟩ (.ok u)
      ⟨putRecord d u (newEntry parent name kind), c⟩ := by
  obtain ⟨hin, hdir⟩ := h.names.parent i hchild.number hchild.live
  rw [hchild.parent] at hin hdir
  have hlast := (mem_inodeNumbers.mp hchild.number).2
  refine create_blind h (h.validName hchild) hin hdir (fun k hk hchild' => ?_) hleast hj
    (by omega) hfault
  have := h.names.unique.child hchild hchild'
  omega

/-- A duplicate is no atomic outcome: the completed operation would have refused. -/
theorem duplicate_not_atomic {i u : Nat} {kind : UInt8} {op : Op} (h : Consistent sectors d T)
    (hkind : kind = 1 ∨ kind = 2) (hchild : IsChild T parent name i)
    (hleast : IsLeast {i | i ∈ inodeNumbers ∧ (T i).kind = 0} u)
    (hstep : ∀ r d', evaluate sectors .outOfRange (create parent name kind) d = (r, d') →
      step sectors d op = d') :
    ¬ Atomic sectors d T op (putRecord d u (newEntry parent name kind)) := by
  intro hatomic
  have hu := inTable_of_mem hleast.1.1
  have hrefused : step sectors d op = d := by
    obtain ⟨r, d', hcreated, heval⟩ := create_evaluate h parent name kind
    rw [hstep r d' heval]
    cases hcreated with
    | badName _ => rfl
    | badParent _ => rfl
    | taken _ => rfl
    | full _ _ => rfl
    | done _ _ _ hnone _ => exact absurd hchild (hnone i)
  have hsame : record (putRecord d u (newEntry parent name kind)) u = record d u := by
    rcases hatomic.table with hold | hnew
    · exact record_congr hu hold
    · rw [hrefused] at hnew
      exact record_congr hu hnew
  have hstorable : (newEntry parent name kind).Storable := by
    refine newEntry_storable parent (h.validName hchild) ?_
    rcases hkind with rfl | rfl <;> decide
  rw [record_putRecord_self d u hstorable, h.shows u hu] at hsame
  have hzero : kind = 0 := by
    have hfree := hleast.1.2
    rw [← Except.ok.inj hsame] at hfree
    exact hfree
  rcases hkind with rfl | rfl <;> exact absurd hzero (by decide)

/-- So a `create` that is always atomic has a lookup that works. -/
theorem lookup_of_atomic {kind : UInt8} {op : Op} (h : Consistent sectors d T)
    (hkind : kind = 1 ∨ kind = 2)
    (hstep : ∀ r d', evaluate sectors .outOfRange (create parent name kind) d = (r, d') →
      step sectors d op = d')
    (hall : ∀ log o s', Exec ((faulty sectors faults).spec Purpose) (create parent name kind).run
      ⟨d, 0⟩ log o s' → Atomic sectors d T op s'.disk) :
    ∀ i, IsChild T parent name i → (∃ u ∈ inodeNumbers, (T u).kind = 0) →
      ∀ j, 0 < j → j < i → ¬ faults j := by
  intro i hchild ⟨v, hv, hfree⟩ j hj hlt hfault
  have hm : Mounted (perfect sectors) d T := Consistent.mounted h
  rcases allocateInode_reads (E := perfect sectors) trivial hm.low h.shows with
    ⟨u, hleast, _⟩ | ⟨hused, _⟩
  · obtain ⟨c, log, hexec⟩ := create_duplicate h hchild hleast hj hlt hfault
    exact duplicate_not_atomic h hkind hchild hleast hstep (hall _ _ _ hexec)
  · exact absurd hfree (hused v hv)

/-- **Atomicity.** From every disk that satisfies the invariant, for every
operation and every set of calls that the device may fail: wherever an execution
ends or is cut off, the disk is as `Atomic` says, if and only if no failed read
can make a `create` believe that a taken name is free. -/
theorem execution_atomic_iff {op : Op} (h : Consistent sectors d T) (hrange : op.InRange)
    (faults : Nat → Prop) :
    (∀ log o s', Exec ((faulty sectors faults).spec Purpose) (op.prog sectors).run ⟨d, 0⟩ log o s' →
      Atomic sectors d T op s'.disk) ↔ op.LookupWorks T faults := by
  refine ⟨fun hall => ?_, fun hlookup log o s' hexec => atomic_of_lookup h hrange hlookup hexec⟩
  cases op with
  | createFile parent name =>
      exact lookup_of_atomic h (.inl rfl) (fun r d' => step_eq (.createFile parent name)) hall
  | createDir parent name =>
      exact lookup_of_atomic h (.inr rfl) (fun r d' => step_eq (.createDir parent name)) hall
  | write inode offset data => trivial
  | truncate inode len => trivial
  | remove parent name => trivial

/-- Removing the only file of a filesystem while every call may fail. -/
theorem execution_atomic_iff_remove : ∃ d T, Consistent 32 d T ∧
    ∀ log o s', Exec ((faulty 32 fun _ => True).spec Purpose)
      ((Op.remove 1 "f").prog 32).run ⟨d, 0⟩ log o s' →
      Atomic 32 d T (.remove 1 "f") s'.disk := by
  have hC := createFile_zeros.2
  exact ⟨_, _, hC, (@execution_atomic_iff 32 _ _ (.remove 1 "f") hC trivial fun _ => True).mpr
    trivial⟩

/-- Creating a file again while its record, call 1, cannot be read: the new record
belongs neither to the old table nor to that of the completed operation. -/
theorem create_not_atomic : ∃ d T, Consistent 32 d T ∧ ∃ log o s',
    Exec ((faulty 32 fun j => j = 1).spec Purpose) ((Op.createFile 1 "f").prog 32).run ⟨d, 0⟩
      log o s' ∧ ¬ Atomic 32 d T (.createFile 1 "f") s'.disk := by
  have hC := createFile_zeros.2
  have hchild := isChild_oneFile validName_f
  have hleast := @isLeast_oneFile (newEntry 1 "f" 1) (by decide)
  obtain ⟨c, log, hexec⟩ := @create_duplicate 32 1 (fun j => j = 1) _ _ "f" 2 1 3 1 hC hchild hleast
    (by decide) (by decide) rfl
  exact ⟨_, _, hC, log, _, _, hexec, duplicate_not_atomic hC (.inl rfl) hchild hleast
    fun r d' => step_eq (.createFile 1 "f")⟩

end Executions

end GenericKernel.Fs
