import GenericKernel.Fs.Accesses
import GenericKernel.Fs.Contents
import GenericKernel.Fs.Faults

/-!
# Extreme offsets

`sectors_for_len` rounds the end of a request up with a sum that wraps for the last 511
values of a `usize`, and then asks for no sectors at all. `zero_range` goes on from the
end of the file through the rest of the device; for a file without sectors it starts at
sector 0. A request for 2^32 or more sectors zeroes the run it finds and then fails,
because the count does not fit its field.

`Harmless` says what a request should do: write to the file's sectors, old or new, and to
its record; and do nothing if there is no room. `store_harmless_iff` gives the exact
condition, in every state that requests meeting it can reach.
-/

namespace GenericKernel.Fs

open GenericKernel.Lib

/-- A request to store in a file. -/
inductive Request
  | write (offset : Nat) (data : List UInt8)
  | truncate (len : Nat)

namespace Request

def op (inode : Nat) : Request → Op
  | write offset data => .write inode offset data
  | truncate len => .truncate inode len

/-- Where the data goes; a longer file is zeroed up to there. -/
def offset : Request → Nat
  | write offset _ => offset
  | truncate len => len

def data : Request → List UInt8
  | write _ data => data
  | truncate _ => []

/-- The end of the request. -/
def stop (r : Request) : Nat := r.offset + r.data.length

/-- `usize` numbers, and a slice of at most `isize::MAX` bytes. -/
def Typed (r : Request) : Prop := r.offset < wordSize ∧ r.data.length < 2 ^ 63

end Request

/-- The sectors that `len` bytes take. -/
def sectorsNeeded (len : Nat) : Nat := (len + SECTOR_SIZE - 1) / SECTOR_SIZE

/-- The sector belongs to the file. -/
def DiskInode.Owns (e : DiskInode) (s : Nat) : Prop :=
  e.HasExtent ∧ e.first ≤ s ∧ s < e.first + e.sectors

/-- A write to the device that the request has a right to: to the file's record, or to a
sector of the file before or after the request (on disk `d'`). -/
def Rightful (sectors : Nat) (T : Table) (d' : Disk) (inode : Nat) (x : Access Purpose) : Prop :=
  x.writes = true → x.block < sectors →
    match x.label with
    | .metadata => x.block = inodeSector (inode - 1)
    | .extent _ _ => (T inode).Owns x.block ∨ ∃ e, record d' inode = .ok e ∧ e.Owns x.block

/-- The request writes only where it has a right to, leaves the records of the other
inodes as they are, and changes nothing if there is no room for it. -/
structure Harmless (sectors : Nat) (d : Disk) (T : Table) (inode : Nat) (r : Request) : Prop where
  writes : ∀ x ∈ accesses sectors .outOfRange ((r.op inode).prog sectors) d,
    Rightful sectors T (step sectors d (r.op inode)) inode x
  others : ∀ j, InTable j → j ≠ inode →
    rawRecord (step sectors d (r.op inode)) j = rawRecord d j
  refused : (T inode).sectors < sectorsNeeded r.stop →
    (∀ a, ¬ FreeRun sectors T inode (sectorsNeeded r.stop) a) →
    (∃ e, (evaluate sectors .outOfRange ((r.op inode).prog sectors) d).1 = .error e) ∧
      step sectors d (r.op inode) = d

/-- When a request up to byte `stop` is harmless: the sum `offset + data.len()`
overflows; or the number of sectors can be computed, and fits its field if there is a run
for it; or it cannot, but the file lies at the end of the device, where zeroing stops at
once, and there is nothing to zero behind the file or room for the request. -/
inductive Safe (sectors : Nat) (d : Disk) (T : Table) (inode stop : Nat) : Prop
  | overflow : wordSize ≤ stop → Safe sectors d T inode stop
  | counted : stop + SECTOR_SIZE - 1 < wordSize →
      sectorsNeeded stop < 2 ^ 32 ∨ (∀ a, ¬ FreeRun sectors T inode (sectorsNeeded stop) a) →
      Safe sectors d T inode stop
  | atEnd : stop < wordSize → wordSize ≤ stop + SECTOR_SIZE - 1 → 0 < (T inode).sectors →
      (T inode).first + (T inode).sectors = sectors →
      (∀ p, (T inode).len.toNat ≤ p → p < SECTOR_SIZE * (T inode).sectors →
        flatByte d (T inode).first p = 0) ∨
        (∃ a, FreeRun sectors T inode (sectorsNeeded stop) a) →
      Safe sectors d T inode stop

/-! ## Opening and reaching -/

section Requests

variable {sectors inode : Nat} {d : Disk} {T : Table} {r : Request}

theorem openFile_evaluate (h : Consistent sectors d T) (hi : inode ∈ inodeNumbers)
    (hfile : (T inode).kind = 1) :
    evaluate sectors .outOfRange (openFile inode) d = (.ok (T inode), d) := by
  have hm : Mounted (perfect sectors) d T := Consistent.mounted h
  rcases openFile_runs hm trivial h.names.root inode with ⟨_, _, hruns⟩ | ⟨hnot, _⟩
  · exact hruns.evaluate
  · exact absurd ⟨hi, hfile⟩ hnot

theorem ensureCapacity_evaluate_fits {e : DiskInode} {needed : Nat} (hfits : needed ≤ e.sectors)
    (d : Disk) :
    evaluate sectors .outOfRange (ensureCapacity sectors inode e needed) d = (.ok e, d) := by
  unfold ensureCapacity
  rw [if_pos (show needed ≤ e.sectorCount.toNat from hfits)]
  rfl

/-- The program of a request after the file is open. -/
theorem Request.mem_accesses {x : Access Purpose} (h : Consistent sectors d T)
    (hi : inode ∈ inodeNumbers) (hfile : (T inode).kind = 1) (hstop : r.stop < wordSize)
    (hx : x ∈ accesses sectors .outOfRange
      (ensureCapacity sectors inode (T inode) (sectorsForLen r.stop)) d) :
    x ∈ accesses sectors .outOfRange ((r.op inode).prog sectors) d := by
  have hopen := openFile_evaluate h hi hfile
  cases r with
  | write offset data =>
      refine mem_accesses_right hopen ?_
      rw [show checkedAdd offset data.length = some (offset + data.length) from if_pos hstop]
      exact mem_accesses_left hx
  | truncate len => exact mem_accesses_right hopen (mem_accesses_left hx)

theorem Request.mem_accesses_gap {x : Access Purpose} (h : Consistent sectors d T)
    (hi : inode ∈ inodeNumbers) (hfile : (T inode).kind = 1) (hstop : r.stop < wordSize)
    (hfits : sectorsForLen r.stop ≤ (T inode).sectors)
    (hx : x ∈ accesses sectors .outOfRange (fillGap (T inode) r.offset) d) :
    x ∈ accesses sectors .outOfRange ((r.op inode).prog sectors) d := by
  have hopen := openFile_evaluate h hi hfile
  have hensure := @ensureCapacity_evaluate_fits sectors inode (T inode) _ hfits d
  cases r with
  | write offset data =>
      refine mem_accesses_right hopen ?_
      rw [show checkedAdd offset data.length = some (offset + data.length) from if_pos hstop]
      exact mem_accesses_right hensure (mem_accesses_left hx)
  | truncate len =>
      exact mem_accesses_right hopen (mem_accesses_right hensure (mem_accesses_left hx))

theorem Request.guarded {P : Access Purpose → Prop} {Q : VfsError → Prop}
    (hP : Permits sectors P Q) (h : Consistent sectors d T) (hi : inode ∈ inodeNumbers)
    (hwrite : P ⟨.metadata, true, inodeSector (inode - 1)⟩)
    (hgrow : r.stop < wordSize → Guarded sectors .outOfRange P Q
      (ensureCapacity sectors inode (T inode) (sectorsForLen r.stop)) d
      (fun e' _ => Cleared sectors P r.offset r.stop e')) (htyped : r.Typed) :
    Guarded sectors .outOfRange P Q ((r.op inode).prog sectors) d (fun _ _ => True) := by
  have hrecord : ∀ e, record d inode = .ok e → e = T inode := by
    intro e he
    rw [h.shows inode (inTable_of_mem hi)] at he
    exact (Except.ok.inj he).symm
  cases r with
  | write offset data =>
      refine write_guarded hP h.device.2 hwrite fun hstop _ e he _ => ?_
      rw [hrecord e he]
      exact hgrow hstop
  | truncate len =>
      refine truncate_guarded hP h.device.2 hwrite fun _ e he _ => ?_
      rw [hrecord e he]
      exact hgrow htyped.1

/-- What a request evaluates to, if its end can be rounded up. -/
theorem Request.evaluate_stored (h : Consistent sectors d T) (inode : Nat)
    (hrange : r.stop + SECTOR_SIZE - 1 < wordSize) :
    ∃ newLen value result d', Stored sectors d T inode r.offset r.data newLen value result d' ∧
      evaluate sectors .outOfRange ((r.op inode).prog sectors) d = (result, d') := by
  cases r with
  | write offset data =>
      obtain ⟨result, d', hstored, heval⟩ := write_evaluate h inode hrange
      exact ⟨_, _, result, d', hstored, heval⟩
  | truncate len =>
      obtain ⟨result, d', hstored, heval⟩ := truncate_evaluate h inode hrange
      exact ⟨_, _, result, d', hstored, heval⟩

end Requests

/-! ## Requests whose end can be rounded up -/

section Counted

variable {sectors inode a : Nat} {d d' : Disk} {T T' : Table} {r : Request}

theorem FreeRun.congr {count : Nat} (h : FreeRun sectors T inode count a)
    (hT : ∀ i ∈ inodeNumbers, T' i = T i) : FreeRun sectors T' inode count a where
  low := h.low
  high := h.high
  free i hi := by
    rw [hT i hi]
    exact h.free i hi

/-- What the search finds on a disk that shows a table. -/
theorem Finds.isLeast {needed : Nat} (h : Consistent sectors d T) (ha : Finds sectors d inode needed a)
    (hpos : 0 < needed) (hneeded : needed ≤ 2 ^ 55) :
    IsLeast {a | FreeRun sectors T inode needed a} a := by
  have hsame : ∀ i ∈ inodeNumbers, tableOf d i = T i := fun i hi =>
    record_tableOf (h.shows i (inTable_of_mem hi))
  have hshows : Shows d (tableOf d) := by
    intro i hi
    rw [record_tableOf (h.shows i hi)]
    exact h.shows i hi
  have hspec := findExtentTable_spec h.device.2 (h.of_shows hshows).layout.extentsIn inode hpos hneeded
  rw [ha.2] at hspec
  exact ⟨hspec.1.congr fun i hi => (hsame i hi).symm, fun b hb => hspec.2 (hb.congr hsame)⟩

theorem sectorsNeeded_eq {len : Nat} (h : len + SECTOR_SIZE - 1 < wordSize) :
    sectorsNeeded len = sectorsForLen len := (sectorsForLen_eq h).symm

theorem permits_rightful (sectors : Nat) (T : Table) (d' : Disk) (inode : Nat) :
    Permits sectors (Rightful sectors T d' inode) (fun _ => False) where
  reads _ hwrites := nomatch hwrites
  misses _ hmiss := .inl fun _ hblock => absurd hblock (Nat.not_lt.mpr hmiss)

theorem rightful_of_guarded {α : Type} {p : FsProg α} {R : α → Disk → Prop} {x : Access Purpose}
    (h : Guarded sectors .outOfRange (Rightful sectors T d' inode) (fun _ => False) p d R)
    (hx : x ∈ accesses sectors .outOfRange p d) : Rightful sectors T d' inode x := by
  rcases h.permitted x hx with hright | ⟨_, _, hfalse, _⟩
  · exact hright
  · exact hfalse.elim

/-- A sector of an entry that the file has before or after the request. -/
theorem rightful_extent {e : DiskInode} {index : Nat} {writes : Bool} (hkind : e.kind = 1)
    (he : T inode = e ∨ record d' inode = .ok e) (hindex : index < e.sectors) :
    Rightful sectors T d' inode ⟨.extent e.first index, writes, e.first + index⟩ := by
  have howns : e.Owns (e.first + index) := by
    refine ⟨⟨hkind, fun hzero => ?_⟩, Nat.le_add_right _ _, by omega⟩
    rw [DiskInode.sectors, hzero] at hindex
    exact absurd hindex (Nat.not_lt_zero _)
  intro _ _
  rcases he with he | he
  · exact .inl (he ▸ howns)
  · exact .inr ⟨e, he, howns⟩

/-- The loops over an entry with room for the request stay in its sectors. -/
theorem cleared_of_room {P : Access Purpose → Prop} {e : DiskInode} {offset stop : Nat}
    (hn : sectors < wordSize) (hroom : stop ≤ SECTOR_SIZE * e.sectors)
    (hhigh : 0 < e.sectors → e.first + e.sectors ≤ sectors)
    (hP : ∀ index < e.sectors, ∀ writes, P ⟨.extent e.first index, writes, e.first + index⟩) :
    Cleared sectors P offset stop e where
  starts hsome := by
    have hindex : min e.len.toNat offset / SECTOR_SIZE < e.sectors :=
      Nat.div_lt_of_lt_mul (by omega)
    have := hhigh (Nat.zero_lt_of_lt hindex)
    exact .inr (by omega)
  permits hsome writes index _ hlt _ := by
    refine hP index ?_ writes
    have : SECTOR_SIZE = 512 := rfl
    rw [this] at hlt hroom
    omega

/-- **A request whose sectors are counted right** is harmless. -/
theorem harmless_of_counted (h : Consistent sectors d T) (hi : inode ∈ inodeNumbers)
    (hfile : (T inode).kind = 1) (htyped : r.Typed) (hrange : r.stop + SECTOR_SIZE - 1 < wordSize)
    (hcount : sectorsNeeded r.stop < 2 ^ 32 ∨
      ∀ a, ¬ FreeRun sectors T inode (sectorsNeeded r.stop) a) :
    Harmless sectors d T inode r := by
  obtain ⟨newLen, value, result, d', hstored, heval⟩ := r.evaluate_stored h inode hrange
  have hstep := step_eq _ heval
  rw [sectorsNeeded_eq hrange] at hcount
  obtain ⟨hfit, hneeded, _⟩ := sectorsForLen_spec hrange
  -- where the file is moved to, its record says afterwards
  have hmoved : (T inode).sectors < sectorsForLen r.stop →
      ∀ a, Finds sectors d inode (sectorsForLen r.stop) a →
      record d' inode = .ok { relocated (T inode) a (sectorsForLen r.stop) with len := newLen } ∧
        (relocated (T inode) a (sectorsForLen r.stop)).first = a ∧
        (relocated (T inode) a (sectorsForLen r.stop)).sectors = sectorsForLen r.stop := by
    intro hless a ha
    have hleast := ha.isLeast h (by omega) hneeded
    have hsmall := hcount.resolve_right fun hnone => hnone a hleast.1
    have hcapacity : Capacity sectors d T inode (sectorsForLen r.stop) _ _ :=
      .moved hless hsmall hleast
    obtain ⟨rfl, hd'⟩ := hstored.done_of_capacity hi hfile hcapacity
    obtain ⟨e, d₁, _, _, hcapacity', hrecord, _⟩ := hstored.record h
    obtain ⟨he, _⟩ := hcapacity.unique hcapacity'
    rw [← Except.ok.inj he] at hrecord
    exact ⟨hrecord, relocated_first h.device.2 hleast.1 _, UInt32.toNat_ofNat_of_lt' hsmall⟩
  have hnew : (T inode).sectors < sectorsForLen r.stop →
      ∀ a, Finds sectors d inode (sectorsForLen r.stop) a → ∀ i < sectorsForLen r.stop, ∀ writes,
      Rightful sectors T d' inode ⟨.extent a i, writes, a + i⟩ := by
    intro hless a ha i hlt writes
    obtain ⟨hrecord, hfirst, hsectors⟩ := hmoved hless a ha
    have hright := @rightful_extent sectors inode d' T
      { relocated (T inode) a (sectorsForLen r.stop) with len := newLen } i writes hfile
      (.inr hrecord) (lt_of_lt_of_eq hlt hsectors.symm)
    rw [show DiskInode.first { relocated (T inode) a (sectorsForLen r.stop) with len := newLen } = a
      from hfirst] at hright
    exact hright
  refine ⟨?_, ?_, fun hless hnone => ?_⟩
  · rw [hstep]
    have hguarded := Request.guarded (r := r) (permits_rightful sectors T d' inode) h hi
      (fun _ _ => rfl) (fun _ => ?_) htyped
    · exact fun x hx => rightful_of_guarded hguarded hx
    · refine (ensureCapacity_guarded (permits_rightful sectors T d' inode) h.device.2
        (fun hless a ha i hlt _ => hnew hless a ha i hlt true)
        (fun _ _ _ _ _ _ _ hwrites => nomatch hwrites)).conseq ?_
      rintro e d₁ (⟨hfits, rfl, rfl⟩ | ⟨hless, a, ha, hhigh, _, rfl⟩)
      · refine cleared_of_room h.device.2 (le_trans hfit (Nat.mul_le_mul_left _ hfits))
          (fun hpos => (h.layout.inside inode hi (hasExtent_of_pos hfile hpos)).2) ?_
        exact fun index hindex writes => rightful_extent hfile (.inl rfl) hindex
      · obtain ⟨_, hfirst, hsectors⟩ := hmoved hless a ha
        refine cleared_of_room h.device.2 (by rw [hsectors]; exact hfit) ?_ ?_
        · rw [hfirst, hsectors]
          exact fun _ => hhigh
        · rw [hfirst, hsectors]
          exact hnew hless a ha
  · intro j hj hne
    rw [hstep]
    exact hstored.rawRecord h hrange hj hne
  · rw [sectorsNeeded_eq hrange] at hless hnone
    have hfull : Capacity sectors d T inode (sectorsForLen r.stop) _ d := .full hless hnone
    rw [hstep, heval]
    cases hstored with
    | notFile hnot => exact absurd ⟨hi, hfile⟩ hnot
    | noRoom _ _ hcapacity => exact ⟨⟨_, rfl⟩, (hfull.unique hcapacity).2.symm⟩
    | done _ _ hcapacity => exact nomatch (hfull.unique hcapacity).1

/-- The run that the search finds, on paper. -/
theorem findExtent_evaluate_least {needed : Nat} (h : Consistent sectors d T)
    (ha : IsLeast {a | FreeRun sectors T inode needed a} a) (hpos : 0 < needed)
    (hneeded : needed ≤ 2 ^ 55) :
    evaluate sectors .outOfRange (findExtent sectors needed inode) d = (.ok a, d) := by
  have hspec := findExtentTable_spec h.device.2 h.layout.extentsIn inode hpos hneeded
  rw [findExtent_evaluate h]
  cases hresult : findExtentTable sectors T needed inode with
  | ok b =>
      rw [hresult] at hspec
      rw [ha.unique hspec]
  | error e =>
      rw [hresult] at hspec
      exact absurd ha.1 (hspec.2 a)

/-- A file that grows writes every sector of the run it is to move to. -/
theorem Request.mem_accesses_run {i : Nat} (h : Consistent sectors d T) (hi : inode ∈ inodeNumbers)
    (hfile : (T inode).kind = 1) (hrange : r.stop + SECTOR_SIZE - 1 < wordSize)
    (hless : (T inode).sectors < sectorsForLen r.stop)
    (ha : IsLeast {a | FreeRun sectors T inode (sectorsForLen r.stop) a} a)
    (hlt : i < sectorsForLen r.stop) : ⟨.extent a i, true, a + i⟩ ∈
      accesses sectors .outOfRange ((r.op inode).prog sectors) d := by
  have hrun : FreeRun sectors T inode (sectorsForLen r.stop) a := ha.1
  have hhigh := hrun.high
  have hn := h.device.2
  have hstop : r.stop < wordSize := by
    have : SECTOR_SIZE = 512 := rfl
    omega
  refine Request.mem_accesses h hi hfile hstop ?_
  unfold ensureCapacity
  rw [if_neg (show ¬ _ ≤ (T inode).sectorCount.toNat from Nat.not_le.mpr hless)]
  refine mem_accesses_right (findExtent_evaluate_least h ha (by omega) (sectorsForLen_spec hrange).2.1)
    (mem_accesses_left (mem_accesses_forRange hlt (fun j hj d => ?_) fun d => ?_))
  · unfold writeExtent
    rw [wrappingAdd_of_lt (by omega), evaluate_writeBlock, if_pos (by omega)]
    exact ⟨_, rfl⟩
  · unfold writeExtent
    rw [wrappingAdd_of_lt (by omega), accesses_writeBlock]
    exact List.mem_singleton_self _

/-- **A request for too many sectors** zeroes the run it finds, and then fails. -/
theorem not_harmless_of_tooLarge (h : Consistent sectors d T) (hi : inode ∈ inodeNumbers)
    (hfile : (T inode).kind = 1) (hrange : r.stop + SECTOR_SIZE - 1 < wordSize)
    (hlarge : 2 ^ 32 ≤ sectorsNeeded r.stop) (ha : FreeRun sectors T inode (sectorsNeeded r.stop) a) :
    ¬ Harmless sectors d T inode r := by
  intro hharmless
  rw [sectorsNeeded_eq hrange] at hlarge ha
  have hless : (T inode).sectors < sectorsForLen r.stop := by
    have := (T inode).sectors_lt
    omega
  obtain ⟨newLen, value, result, d', hstored, heval⟩ := r.evaluate_stored h inode hrange
  obtain ⟨b, hb, hrecord⟩ : ∃ b, IsLeast {a | FreeRun sectors T inode (sectorsForLen r.stop) a} b ∧
      record d' inode = .ok (T inode) := by
    cases hstored with
    | notFile hnot => exact absurd ⟨hi, hfile⟩ hnot
    | noRoom _ _ hcapacity =>
        have hsame : record d' inode = .ok (T inode) :=
          (h.dirty (@Capacity.differsIn (perfect sectors) _ _ _ _ _ _ hcapacity)).shows inode
            (inTable_of_mem hi)
        cases hcapacity with
        | full _ hnone => exact absurd ha (hnone a)
        | tooLarge _ _ hb => exact ⟨_, hb, hsame⟩
    | done _ _ hcapacity =>
        cases hcapacity with
        | fits hfits => exact absurd hless (Nat.not_lt.mpr hfits)
        | moved _ hsmall _ => exact absurd hsmall (Nat.not_lt.mpr hlarge)
  have hrun : FreeRun sectors T inode (sectorsForLen r.stop) b := hb.1
  have hhigh := hrun.high
  -- a sector of the run that is not the file's: it is longer than the file
  obtain ⟨i, hlt, hforeign⟩ : ∃ i < sectorsForLen r.stop, ¬ (T inode).Owns (b + i) := by
    by_cases hown : (T inode).Owns b
    · refine ⟨sectorsForLen r.stop - 1, by omega, fun howns => ?_⟩
      have := hown.2
      have := howns.2
      omega
    · exact ⟨0, by omega, hown⟩
  have hright := hharmless.writes _ (Request.mem_accesses_run h hi hfile hrange hless hb hlt) rfl
    (show b + i < sectors by omega)
  rw [step_eq _ heval] at hright
  rcases hright with howns | ⟨e, he, howns⟩
  · exact hforeign howns
  · rw [hrecord] at he
    rw [← Except.ok.inj he] at howns
    exact hforeign howns

end Counted

/-! ## Requests whose end wraps -/

/-- A loop that runs to the end of the device stops there. -/
theorem overlay_evaluate_past {sectors start count : Nat} (hn : sectors < wordSize)
    (hend : start + count = sectors) (fuel : Nat) :
    ∀ {position : Nat} {bytes : List UInt8} {d : Disk}, bytes.length ≤ fuel →
    position ≤ SECTOR_SIZE * count → SECTOR_SIZE * count < position + bytes.length →
    evaluate sectors .outOfRange (overlay start fuel position bytes) d =
      (.error .corruptFilesystem,
        patch d start position (bytes.take (SECTOR_SIZE * count - position))) := by
  have hsector : SECTOR_SIZE = 512 := rfl
  induction fuel with
  | zero =>
      intro position bytes d hfuel hle hlt
      omega
  | succ fuel ih =>
      intro position bytes d hfuel hle hlt
      have hindex : position / SECTOR_SIZE ≤ count := by
        rw [hsector] at hle ⊢
        omega
      have hword : wrappingAdd start (position / SECTOR_SIZE) = start + position / SECTOR_SIZE :=
        wrappingAdd_of_lt (by omega)
      have hmod := Nat.mod_lt position (show 0 < SECTOR_SIZE by decide)
      unfold overlay
      rw [if_neg (by omega)]
      generalize hchunk : min (SECTOR_SIZE - position % SECTOR_SIZE) bytes.length = chunk
      dsimp only [readExtent, writeExtent]
      rw [hword, hchunk, evaluate_bind, evaluate_readBlock]
      by_cases hlast : position = SECTOR_SIZE * count
      · have hmiss : ¬ start + position / SECTOR_SIZE < sectors := by
          rw [hsector] at hlast ⊢
          omega
        rw [if_neg hmiss, hlast, Nat.sub_self, List.take_zero, patch_nil]
        rfl
      · have hblock : start + position / SECTOR_SIZE < sectors := by
          rw [hsector] at hlast hle ⊢
          omega
        have hfull : chunk ≤ SECTOR_SIZE * count - position := by
          rw [hsector] at hchunk hlast hle ⊢
          omega
        have hlen : (bytes.take chunk).length = chunk := by
          rw [List.length_take]
          omega
        have hone : Function.update d (start + position / SECTOR_SIZE)
            (splice (d (start + position / SECTOR_SIZE)) (position % SECTOR_SIZE)
              (bytes.take chunk)) = patch d start position (bytes.take chunk) := by
          refine (patch_one d ?_).symm
          rw [hlen]
          omega
        have hcompose := @patch_append _ d start position (bytes.take chunk)
          ((bytes.drop chunk).take (SECTOR_SIZE * count - (position + chunk)))
        rw [hlen] at hcompose
        rw [if_pos hblock]
        dsimp only
        rw [evaluate_bind, evaluate_writeBlock, if_pos hblock]
        dsimp only
        rw [hone, ih (by rw [List.length_drop]; omega) (by omega)
          (by rw [List.length_drop]; omega), hcompose, ← List.take_add]
        congr 3
        omega

section Wraps

variable {sectors inode a : Nat} {d d' : Disk} {T T' : Table} {r : Request}

/-- The end of the request cannot be rounded up. -/
structure Wraps (r : Request) : Prop where
  typed : r.Typed
  stop : r.stop < wordSize
  wraps : wordSize ≤ r.stop + SECTOR_SIZE - 1

/-- No sectors are asked for, and the request lies far behind the file. -/
theorem Wraps.far (hw : Wraps r) (h : Consistent sectors d T) (hi : inode ∈ inodeNumbers)
    (hfile : (T inode).kind = 1) : sectorsForLen r.stop = 0 ∧
      (T inode).len.toNat ≤ SECTOR_SIZE * (T inode).sectors ∧
      SECTOR_SIZE * (T inode).sectors < r.offset := by
  refine ⟨(sectorsForLen_eq_zero hw.stop).mpr (.inr hw.wraps), h.layout.holds inode hi hfile, ?_⟩
  have hcount := (T inode).sectors_lt
  have hlen := hw.typed.2
  have hwraps := hw.wraps
  have hstop : r.stop = r.offset + r.data.length := rfl
  have hsector : SECTOR_SIZE = 512 := rfl
  rw [hsector, wordSize] at hwraps
  rw [hsector]
  omega

/-- The loop of `zero_range` for it. -/
theorem Wraps.fillGap_eq (hw : Wraps r) (h : Consistent sectors d T) (hi : inode ∈ inodeNumbers)
    (hfile : (T inode).kind = 1) : fillGap (T inode) r.offset =
      overlay (T inode).first (r.offset - (T inode).len.toNat) (T inode).len.toNat
        (List.replicate (r.offset - (T inode).len.toNat) 0) := by
  obtain ⟨_, hlen, hfar⟩ := hw.far h hi hfile
  unfold fillGap zeroRange
  rw [if_pos (by omega), if_neg (by omega)]
  rfl

/-- It writes every sector from the end of the file on. -/
theorem Wraps.mem_accesses (hw : Wraps r) (h : Consistent sectors d T) (hi : inode ∈ inodeNumbers)
    (hfile : (T inode).kind = 1) {index : Nat} (hle : (T inode).len.toNat / SECTOR_SIZE ≤ index)
    (hlt : index ≤ (T inode).sectors) (hindex : (T inode).first + index < sectors) :
    ⟨.extent (T inode).first index, true, (T inode).first + index⟩ ∈
      accesses sectors .outOfRange ((r.op inode).prog sectors) d := by
  obtain ⟨hnone, hlen, hfar⟩ := hw.far h hi hfile
  refine Request.mem_accesses_gap h hi hfile hw.stop (by omega) ?_
  rw [hw.fillGap_eq h hi hfile]
  have hmul := Nat.mul_le_mul_left SECTOR_SIZE hlt
  refine overlay_writes h.device.2 hindex _ (by rw [List.length_replicate]) ?_ hle ?_
  · rw [List.length_replicate]
    omega
  · rw [List.length_replicate]
    omega

/-- An error of its first loop is its result. -/
theorem Wraps.evaluate_error {e : VfsError} (hw : Wraps r) (h : Consistent sectors d T)
    (hi : inode ∈ inodeNumbers) (hfile : (T inode).kind = 1)
    (hgap : evaluate sectors .outOfRange (fillGap (T inode) r.offset) d = (.error e, d')) :
    evaluate sectors .outOfRange ((r.op inode).prog sectors) d = (.error e, d') := by
  have hopen := openFile_evaluate h hi hfile
  have hnone := (hw.far h hi hfile).1
  have hensure := @ensureCapacity_evaluate_fits sectors inode (T inode) (sectorsForLen r.stop)
    (by omega) d
  cases r with
  | write offset data =>
      have hstop : checkedAdd offset data.length = some (offset + data.length) := if_pos hw.stop
      refine (evaluate_bind_ok hopen _).trans ?_
      rw [hstop]
      exact (evaluate_bind_ok hensure _).trans (evaluate_bind_error hgap _)
  | truncate len =>
      refine (evaluate_bind_ok hopen _).trans ?_
      exact (evaluate_bind_ok hensure _).trans (evaluate_bind_error hgap _)

/-- Unless the device goes on for as long, it zeroes everything from the end of the file on, and
fails. -/
theorem Wraps.evaluate_past {count : Nat} (hw : Wraps r) (h : Consistent sectors d T)
    (hi : inode ∈ inodeNumbers) (hfile : (T inode).kind = 1)
    (hend : (T inode).first + count = sectors) (hcount : (T inode).sectors ≤ count)
    (hfar : SECTOR_SIZE * count < r.offset) :
    evaluate sectors .outOfRange ((r.op inode).prog sectors) d = (.error .corruptFilesystem,
      patch d (T inode).first (T inode).len.toNat (List.replicate
        (SECTOR_SIZE * count - (T inode).len.toNat) 0)) := by
  have hlen : (T inode).len.toNat ≤ SECTOR_SIZE * count :=
    (hw.far h hi hfile).2.1.trans (Nat.mul_le_mul_left _ hcount)
  refine hw.evaluate_error h hi hfile ?_
  rw [hw.fillGap_eq h hi hfile, overlay_evaluate_past h.device.2 hend _ (by rw [List.length_replicate])
    hlen (by rw [List.length_replicate]; omega), List.take_replicate, Nat.min_eq_left (by omega)]

/-- At the end of the device it zeroes the rest of the file's last sectors and fails. -/
theorem Wraps.evaluate_atEnd (hw : Wraps r) (h : Consistent sectors d T) (hi : inode ∈ inodeNumbers)
    (hfile : (T inode).kind = 1) (hend : (T inode).first + (T inode).sectors = sectors) :
    evaluate sectors .outOfRange ((r.op inode).prog sectors) d = (.error .corruptFilesystem,
      patch d (T inode).first (T inode).len.toNat (List.replicate
        (SECTOR_SIZE * (T inode).sectors - (T inode).len.toNat) 0)) :=
  hw.evaluate_past h hi hfile hend (le_refl _) (hw.far h hi hfile).2.2

/-- Zeroing zeros changes nothing. -/
theorem patch_zeros_eq_iff {start position stop : Nat} (d : Disk) :
    patch d start position (List.replicate (stop - position) 0) = d ↔
      ∀ p, position ≤ p → p < stop → flatByte d start p = 0 := by
  constructor
  · intro hsame p hle hlt
    have hbyte := @flatByte_patch _ d start position (List.replicate (stop - position) 0)
      (by decide) p
    rw [hsame, if_pos hle, List.getElem?_replicate_of_lt (by omega)] at hbyte
    exact hbyte
  · intro hzero
    funext s
    by_cases hs : s < start
    · exact patch_before d hs
    · refine Vector.ext fun i hi => ?_
      rw [getElem_patch d (Nat.not_lt.mp hs) hi]
      by_cases hle : position ≤ (s - start) * SECTOR_SIZE + i
      · rw [if_pos hle]
        by_cases hlt : (s - start) * SECTOR_SIZE + i < stop
        · have hbyte := hzero _ hle hlt
          have hdiv : ((s - start) * SECTOR_SIZE + i) / SECTOR_SIZE = s - start := by
            rw [Nat.mul_comm, Nat.mul_add_div (by decide), Nat.div_eq_of_lt hi, Nat.add_zero]
          have hmod : ((s - start) * SECTOR_SIZE + i) % SECTOR_SIZE = i := by
            rw [Nat.mul_comm, Nat.mul_add_mod, Nat.mod_eq_of_lt hi]
          rw [List.getElem?_replicate_of_lt (by omega), Option.getD_some]
          unfold flatByte at hbyte
          rw [hdiv, hmod, Nat.add_sub_cancel' (Nat.not_lt.mp hs), Vector.getElem?_eq_getElem hi] at hbyte
          exact hbyte.symm
        · rw [List.getElem?_eq_none (by rw [List.length_replicate]; omega)]
          rfl
      · rw [if_neg hle]

/-- **A request that wraps at the end of the device** is harmless if there is nothing to
zero, or room for it. -/
theorem harmless_of_atEnd (hw : Wraps r) (h : Consistent sectors d T) (hi : inode ∈ inodeNumbers)
    (hfile : (T inode).kind = 1) (hpos : 0 < (T inode).sectors)
    (hend : (T inode).first + (T inode).sectors = sectors)
    (hslack : (∀ p, (T inode).len.toNat ≤ p → p < SECTOR_SIZE * (T inode).sectors →
        flatByte d (T inode).first p = 0) ∨
      ∃ a, FreeRun sectors T inode (sectorsNeeded r.stop) a) : Harmless sectors d T inode r := by
  obtain ⟨hnone, hlen, hfar⟩ := hw.far h hi hfile
  have heval := hw.evaluate_atEnd h hi hfile hend
  have hstep := step_eq _ heval
  have hextent := hasExtent_of_pos hfile hpos
  have hlow := (h.layout.inside inode hi hextent).1
  refine ⟨fun x hx => ?_, fun j hj hne => ?_, fun _ hfull => ?_⟩
  · have hguarded := Request.guarded (r := r)
      (permits_rightful sectors T (step sectors d (r.op inode)) inode) h hi (fun _ _ => rfl)
      (fun _ => ?_) hw.typed
    · exact rightful_of_guarded hguarded hx
    · rw [hnone]
      refine Guarded.pure ⟨fun _ => .inr ?_,
        fun _ writes index _ _ hblock => rightful_extent hfile (.inl rfl) (by omega)⟩
      have hmin : min (T inode).len.toNat r.offset / SECTOR_SIZE ≤ (T inode).sectors := by
        have hsector : SECTOR_SIZE = 512 := rfl
        rw [hsector] at hlen ⊢
        omega
      have := h.device.2
      omega
  · rw [hstep]
    refine rawRecord_congr hj fun s _ hs => patch_before d ?_
    omega
  · rw [hstep, heval]
    refine ⟨⟨_, rfl⟩, (patch_zeros_eq_iff d).mpr ?_⟩
    exact hslack.resolve_right fun ⟨a, ha⟩ => hfull a ha

/-- A write outside the metadata. -/
def Outside (x : Access Purpose) : Prop := x.writes = true → DATA_START ≤ x.block

theorem permits_outside (hlow : DATA_START ≤ sectors) :
    Permits sectors Outside (fun _ => False) where
  reads _ hwrites := nomatch hwrites
  misses _ hmiss := .inl fun _ => le_trans hlow hmiss

theorem Outside.record {α : Type} {p : FsProg α} {R : α → Disk → Prop} (hlow : DATA_START ≤ sectors)
    (hin : InTable inode) (hp : Guarded sectors .outOfRange Outside (fun _ => False) p d R) :
    Fs.record (evaluate sectors .outOfRange p d).2 inode = Fs.record d inode :=
  record_congr hin fun _ _ hs => hp.outside (by omega) fun _ hx hwrites => by
    have := hx hwrites
    omega

/-- Also elsewhere it stays in the data area, and the file keeps its extent. -/
theorem Wraps.record_step (hw : Wraps r) (h : Consistent sectors d T) (hi : inode ∈ inodeNumbers)
    (hfile : (T inode).kind = 1) (hpos : 0 < (T inode).sectors) :
    ∃ l, record (step sectors d (r.op inode)) inode = .ok { T inode with len := l } := by
  obtain ⟨hnone, hlen, hfar⟩ := hw.far h hi hfile
  have hsize : DATA_START ≤ sectors := le_of_lt (Nat.lt_of_succ_lt h.device.1)
  have hin := inTable_of_mem hi
  obtain ⟨hlow, hhigh⟩ := h.layout.inside inode hi (hasExtent_of_pos hfile hpos)
  have hopen := openFile_evaluate h hi hfile
  have hensure := @ensureCapacity_evaluate_fits sectors inode (T inode) (sectorsForLen r.stop)
    (by omega) d
  have hcommit : ∀ d₂ value, evaluate sectors .outOfRange (writeInode inode value) d₂ =
      (.ok (), putRecord d₂ inode value) := fun d₂ value =>
    (writeInode_runs (E := perfect sectors) (d := d₂) trivial hsize hin trivial).evaluate
  have hcleared : Cleared sectors Outside r.offset r.stop (T inode) := by
    refine ⟨fun _ => .inr ?_, fun _ writes index _ _ hblock _ => le_trans hlow (Nat.le_add_right _ _)⟩
    have hmin : min (T inode).len.toNat r.offset / SECTOR_SIZE ≤ (T inode).sectors := by
      have hsector : SECTOR_SIZE = 512 := rfl
      rw [hsector] at hlen ⊢
      omega
    have := h.device.2
    omega
  have hloops := @loops_guarded sectors Outside _ d (permits_outside hsize) h.device.2 _ _ _
    (Nat.le_add_right _ _) hcleared
  have hfirst := Outside.record hsize hin hloops
  rw [h.shows inode hin] at hfirst
  rcases hgap : evaluate sectors .outOfRange (fillGap (T inode) r.offset) d with ⟨result, d₁⟩
  rw [hgap] at hfirst
  cases result with
  | error e =>
      rw [step_eq _ (hw.evaluate_error h hi hfile hgap)]
      exact ⟨_, hfirst⟩
  | ok u =>
      cases r with
      | truncate len =>
          have heval : evaluate sectors .outOfRange (truncate sectors inode len) d =
              (.ok (), putRecord d₁ inode { T inode with len := UInt64.ofNat len }) :=
            (evaluate_bind_ok hopen _).trans ((evaluate_bind_ok hensure _).trans
              ((evaluate_bind_ok hgap _).trans (hcommit d₁ _)))
          rw [step_eq ((Request.truncate len).op inode) heval]
          exact ⟨_, record_putRecord_self _ _ (h.shows.storable hin)⟩
      | write offset data =>
          have hstop : checkedAdd offset data.length = some (offset + data.length) := if_pos hw.stop
          have hsecond : record (evaluate sectors .outOfRange
              (overlay (T inode).startSector.toNat data.length offset data) d₁).2 inode =
              .ok (T inode) :=
            (Outside.record hsize hin (hloops.returns u d₁ hgap data rfl)).trans hfirst
          rcases hdata : evaluate sectors .outOfRange
            (overlay (T inode).startSector.toNat data.length offset data) d₁ with ⟨result, d₂⟩
          rw [hdata] at hsecond
          cases result with
          | error e =>
              have heval : evaluate sectors .outOfRange (write sectors inode offset data) d =
                  (.error e, d₂) := by
                refine (evaluate_bind_ok hopen _).trans ?_
                rw [hstop]
                exact (evaluate_bind_ok hensure _).trans ((evaluate_bind_ok hgap _).trans
                  (evaluate_bind_error hdata _))
              rw [step_eq ((Request.write offset data).op inode) heval]
              exact ⟨_, hsecond⟩
          | ok u =>
              have heval : evaluate sectors .outOfRange (write sectors inode offset data) d =
                  (.ok data.length, putRecord d₂ inode { T inode with
                    len := max (T inode).len (UInt64.ofNat (offset + data.length)) }) := by
                refine (evaluate_bind_ok hopen _).trans ?_
                rw [hstop]
                exact (evaluate_bind_ok hensure _).trans ((evaluate_bind_ok hgap _).trans
                  ((evaluate_bind_ok hdata _).trans (evaluate_bind_ok (hcommit d₂ _) _)))
              rw [step_eq ((Request.write offset data).op inode) heval]
              exact ⟨_, record_putRecord_self _ _ (h.shows.storable hin)⟩

/-- The records of a tidy disk are placed. -/
theorem TidyDisk.placed {e : DiskInode} (h : TidyDisk sectors d) (hi : inode ∈ inodeNumbers)
    (he : record d inode = .ok e) (hkind : e.kind = 1) : Placed sectors e := by
  obtain ⟨T, hT, htidy⟩ := h
  rw [hT inode (inTable_of_mem hi)] at he
  rw [← Except.ok.inj he] at hkind ⊢
  exact htidy.placed inode hi hkind

/-- No file owns a sector of the metadata. -/
theorem TidyDisk.not_owns {e : DiskInode} {s : Nat} (h : TidyDisk sectors d)
    (hi : inode ∈ inodeNumbers) (he : record d inode = .ok e) (hs : s < DATA_START) :
    ¬ e.Owns s := by
  intro howns
  cases h.placed hi he howns.1.1 with
  | nowhere hnone _ _ =>
      have := howns.1.sectors_pos
      omega
  | somewhere _ hlow _ _ =>
      have := howns.2
      omega

/-- **A request that wraps** is harmless only at the end of the device. -/
theorem safe_of_harmless (hw : Wraps r) (h : Consistent sectors d T) (hi : inode ∈ inodeNumbers)
    (hfile : (T inode).kind = 1) (htidy : TidyDisk sectors d)
    (htidy' : TidyDisk sectors (step sectors d (r.op inode)))
    (hharmless : Harmless sectors d T inode r) : Safe sectors d T inode r.stop := by
  obtain ⟨hnone, hlen, hfar⟩ := hw.far h hi hfile
  have hrecord := h.shows inode (inTable_of_mem hi)
  have hsector : SECTOR_SIZE = 512 := rfl
  -- a file without sectors starts at sector 0, which is no file's
  have hpos : 0 < (T inode).sectors := by
    by_contra hzero
    have hempty : (T inode).sectors = 0 := by omega
    have hfirst : (T inode).first = 0 := by
      cases htidy.placed hi hrecord hfile with
      | nowhere _ hfirst _ => exact hfirst
      | somewhere hpos _ _ _ => omega
    rw [hempty, Nat.mul_zero] at hlen
    have hsize := h.device.1
    have hmem := @Wraps.mem_accesses _ _ _ _ _ hw h hi hfile 0 (by rw [hsector]; omega) (Nat.zero_le _)
      (by omega)
    rcases hharmless.writes _ hmem rfl (show (T inode).first + 0 < sectors by omega) with
      howns | ⟨e, he, howns⟩
    · exact htidy.not_owns hi hrecord (by rw [hfirst]; decide) howns
    · exact htidy'.not_owns hi he (by rw [hfirst]; decide) howns
  -- elsewhere it writes the sector behind the file
  have hend : (T inode).first + (T inode).sectors = sectors := by
    by_contra hne
    have hhigh := (h.layout.inside inode hi (hasExtent_of_pos hfile hpos)).2
    have hmem := @Wraps.mem_accesses _ _ _ _ _ hw h hi hfile (T inode).sectors
      (by rw [hsector] at hlen ⊢; omega) (le_refl _) (by omega)
    obtain ⟨l, hafter⟩ := hw.record_step h hi hfile hpos
    rcases hharmless.writes _ hmem rfl (show (T inode).first + (T inode).sectors < sectors by omega)
      with howns | ⟨e, he, howns⟩
    · exact absurd howns.2.2 (lt_irrefl _)
    · rw [hafter] at he
      rw [← Except.ok.inj he] at howns
      exact absurd howns.2.2 (lt_irrefl _)
  refine .atEnd hw.stop hw.wraps hpos hend (or_iff_not_imp_right.mpr fun hfull => ?_)
  have hmany : (T inode).sectors < sectorsNeeded r.stop := by
    have := (T inode).sectors_lt
    have hwraps := hw.wraps
    unfold sectorsNeeded
    rw [hsector, wordSize] at *
    omega
  have hsame := (hharmless.refused hmany fun a ha => hfull ⟨a, ha⟩).2
  rw [step_eq _ (hw.evaluate_atEnd h hi hfile hend)] at hsame
  exact (patch_zeros_eq_iff d).mp hsame

end Wraps

/-! ## Every state -/

/-- The operation is harmless: a request on a file is safe. -/
def SafeOp (sectors : Nat) (d : Disk) : Op → Prop
  | .write inode offset data => ∀ T, Shows d T → inode ∈ inodeNumbers → (T inode).kind = 1 →
      Safe sectors d T inode (offset + data.length)
  | .truncate inode len => ∀ T, Shows d T → inode ∈ inodeNumbers → (T inode).kind = 1 →
      Safe sectors d T inode len
  | _ => True

/-- The states that a fresh filesystem reaches by harmless operations. -/
inductive SafelyReachable (sectors : Nat) : Disk → Prop
  | fresh {d d₀ : Disk} : sectors < wordSize →
      evaluate sectors .outOfRange (mount sectors true) d = (.ok true, d₀) →
      SafelyReachable sectors d₀
  | step {d : Disk} {op : Op} : SafelyReachable sectors d → op.Typed → SafeOp sectors d op →
      SafelyReachable sectors (step sectors d op)

section Reachable

variable {sectors inode : Nat} {d : Disk} {T : Table} {r : Request}

/-- A request for what is no file changes nothing. -/
theorem Request.step_notFile (h : Consistent sectors d T)
    (hnot : ¬ (inode ∈ inodeNumbers ∧ (T inode).kind = 1)) : step sectors d (r.op inode) = d := by
  have hm : Mounted (perfect sectors) d T := Consistent.mounted h
  rcases openFile_runs hm trivial h.names.root inode with ⟨hi, hfile, _⟩ | ⟨_, e, hruns⟩
  · exact absurd ⟨hi, hfile⟩ hnot
  · cases r with
    | write offset data => exact step_eq _ (evaluate_bind_error hruns.evaluate _)
    | truncate len => exact step_eq _ (evaluate_bind_error hruns.evaluate _)

/-- A request whose end overflows changes nothing. -/
theorem Request.evaluate_overflow (h : Consistent sectors d T) (hi : inode ∈ inodeNumbers)
    (hfile : (T inode).kind = 1) (htyped : r.Typed) (hover : wordSize ≤ r.stop) :
    evaluate sectors .outOfRange ((r.op inode).prog sectors) d = (.error .offsetOverflow, d) := by
  cases r with
  | write offset data =>
      refine (evaluate_bind_ok (openFile_evaluate h hi hfile) _).trans ?_
      rw [show checkedAdd offset data.length = none from if_neg (Nat.not_lt.mpr hover)]
      rfl
  | truncate len => exact absurd htyped.1 (Nat.not_lt.mpr hover)

/-- Safe requests keep the invariant. -/
theorem Request.step_consistent (h : Consistent sectors d T) (htyped : r.Typed)
    (hsafe : inode ∈ inodeNumbers → (T inode).kind = 1 → Safe sectors d T inode r.stop) :
    ∃ T', Consistent sectors (step sectors d (r.op inode)) T' := by
  by_cases hfile : inode ∈ inodeNumbers ∧ (T inode).kind = 1
  · obtain ⟨hi, hfile⟩ := hfile
    cases hsafe hi hfile with
    | overflow hover =>
        rw [step_eq _ (Request.evaluate_overflow h hi hfile htyped hover)]
        exact ⟨T, h⟩
    | counted hrange _ =>
        refine Fs.step_consistent h ?_
        cases r with
        | write offset data => exact hrange
        | truncate len => exact hrange
    | atEnd hstop hwraps hpos hend _ =>
        have hw : Wraps r := ⟨htyped, hstop, hwraps⟩
        obtain ⟨_, hlen, _⟩ := hw.far h hi hfile
        rw [step_eq _ (hw.evaluate_atEnd h hi hfile hend)]
        refine ⟨T, h.dirty (patch_differsIn (h.layout.freeRun hi
          (hasExtent_of_pos hfile hpos)).isPrivate ?_)⟩
        rw [List.length_replicate]
        omega
  · rw [Request.step_notFile h hfile]
    exact ⟨T, h⟩

/-- Every operation keeps a disk tidy on a device without faults. -/
theorem step_tidy {op : Op} (hlow : DATA_START ≤ sectors) (hn : sectors < wordSize)
    (h : TidyDisk sectors d) (htyped : op.Typed) : TidyDisk sectors (step sectors d op) := by
  obtain ⟨T, hT, htidy⟩ := h
  have hlookup : op.LookupWorks T fun _ => False := by
    cases op with
    | createFile parent name => exact fun _ _ _ _ _ _ => id
    | createDir parent name => exact fun _ _ _ _ _ _ => id
    | write inode offset data => trivial
    | truncate inode len => trivial
    | remove parent name => trivial
  obtain ⟨c, log, hexec⟩ := canEnd_evaluate (faulty sectors fun _ => False) (op.prog sectors) d 0
  have htidy' := exec_tidy hlow hn hT htidy htyped hlookup hexec
  exact htidy'

theorem SafelyReachable.invariant (h : SafelyReachable sectors d) :
    (∃ T, Consistent sectors d T) ∧ TidyDisk sectors d := by
  induction h with
  | fresh hword hmount =>
      obtain ⟨hsize, rfl⟩ := mount_formats hmount
      have hC := formatted_consistent hsize hword
      exact ⟨⟨_, hC _⟩, blankTable, (hC _).shows, blankTable_tidy sectors⟩
  | @step d op _ htyped hsafe ih =>
      obtain ⟨⟨T, hC⟩, htidy⟩ := ih
      refine ⟨?_, step_tidy (le_of_lt (Nat.lt_of_succ_lt hC.device.1)) hC.device.2 htidy htyped⟩
      cases op with
      | createFile parent name => exact @step_consistent _ _ _ hC (.createFile parent name) trivial
      | createDir parent name => exact @step_consistent _ _ _ hC (.createDir parent name) trivial
      | write inode offset data =>
          exact Request.step_consistent (r := .write offset data) hC htyped (hsafe T hC.shows)
      | truncate inode len =>
          exact Request.step_consistent (r := .truncate len) hC
            ⟨htyped, show 0 < 2 ^ 63 by decide⟩ (hsafe T hC.shows)
      | remove parent name => exact @step_consistent _ _ _ hC (.remove parent name) trivial

/-- **Extreme offsets.** In every state that safe operations reach, for every file and
every request: it is harmless if and only if it is safe. -/
theorem store_harmless_iff (h : SafelyReachable sectors d) (hT : Shows d T)
    (hi : inode ∈ inodeNumbers) (hfile : (T inode).kind = 1) (htyped : r.Typed) :
    Harmless sectors d T inode r ↔ Safe sectors d T inode r.stop := by
  obtain ⟨⟨T₀, hT₀⟩, htidy⟩ := h.invariant
  have hC := hT₀.of_shows hT
  by_cases hover : wordSize ≤ r.stop
  · refine ⟨fun _ => .overflow hover, fun _ => ?_⟩
    have heval := Request.evaluate_overflow hC hi hfile htyped hover
    have hstep := step_eq _ heval
    have hguarded := Request.guarded (r := r)
      (permits_rightful sectors T (step sectors d (r.op inode)) inode) hC hi (fun _ _ => rfl)
      (fun hstop => absurd hstop (Nat.not_lt.mpr hover)) htyped
    refine ⟨fun x hx => ?_, fun j _ _ => ?_, fun _ _ => ⟨⟨.offsetOverflow, ?_⟩, hstep⟩⟩
    · exact rightful_of_guarded hguarded hx
    · rw [hstep]
    · rw [heval]
  · by_cases hrange : r.stop + SECTOR_SIZE - 1 < wordSize
    · constructor
      · intro hharmless
        refine .counted hrange (or_iff_not_imp_left.mpr fun hlarge a ha => ?_)
        exact not_harmless_of_tooLarge hC hi hfile hrange (Nat.not_lt.mp hlarge) ha hharmless
      · intro hsafe
        cases hsafe with
        | overflow hover' => exact absurd hover' hover
        | counted _ hcount => exact harmless_of_counted hC hi hfile htyped hrange hcount
        | atEnd _ hwraps _ _ _ => exact absurd hrange (Nat.not_lt.mpr hwraps)
    · have hw : Wraps r := ⟨htyped, Nat.not_le.mp hover, Nat.not_lt.mp hrange⟩
      constructor
      · intro hharmless
        refine safe_of_harmless hw hC hi hfile htidy (step_tidy ?_ hC.device.2 htidy ?_) hharmless
        · exact le_of_lt (Nat.lt_of_succ_lt hC.device.1)
        · cases r with
          | write offset data => exact htyped
          | truncate len => exact htyped.1
      · intro hsafe
        cases hsafe with
        | overflow hover' => exact absurd hover' hover
        | counted hrange' _ => exact absurd hrange' hrange
        | atEnd _ _ hpos hend hslack => exact harmless_of_atEnd hw hC hi hfile hpos hend hslack

end Reachable

theorem safelyReachable_oneFile : SafelyReachable 32 oneFile :=
  @SafelyReachable.step _ _ (.createFile 1 "f")
    (.fresh (lt_wordSize (by decide)) mount_zeros) trivial trivial

/-- Extending the empty file of a small filesystem to 100 bytes. -/
theorem store_harmless_iff_small : ∃ d T, SafelyReachable 32 d ∧
    Harmless 32 d T 2 (.truncate 100) := by
  have hreach := safelyReachable_oneFile
  have hC := createFile_zeros.2
  have hword : 100 + SECTOR_SIZE - 1 < wordSize := lt_wordSize (by decide)
  refine ⟨_, _, hreach, (store_harmless_iff hreach hC.shows two_mem rfl ⟨?_, by decide⟩).mpr
    (.counted hword (.inl (by decide)))⟩
  exact lt_of_le_of_lt (by decide) hword

/-- Extending that file to the largest length zeroes the device from sector 0 on. -/
theorem largest_length_not_harmless : ∃ d T, SafelyReachable 32 d ∧ Shows d T ∧
    (T 2).kind = 1 ∧ ¬ Harmless 32 d T 2 (.truncate (wordSize - 1)) := by
  have hreach := safelyReachable_oneFile
  have hC := createFile_zeros.2
  have hword : wordSize - 1 < wordSize := by
    have := wordSize_pos
    omega
  have hstop : (Request.truncate (wordSize - 1)).stop = wordSize - 1 := Nat.add_zero _
  have hwraps : wordSize ≤ wordSize - 1 + SECTOR_SIZE - 1 := by
    have : SECTOR_SIZE = 512 := rfl
    omega
  have hw : Wraps (.truncate (wordSize - 1)) :=
    ⟨⟨hword, Nat.two_pow_pos 63⟩, by rw [hstop]; exact hword, by rw [hstop]; exact hwraps⟩
  refine ⟨_, _, hreach, hC.shows, rfl, fun hharmless => ?_⟩
  have htidy := hreach.invariant.2
  have hsafe := safe_of_harmless hw hC two_mem rfl htidy (step_tidy (by decide) hC.device.2 htidy hword)
    hharmless
  cases hsafe with
  | overflow hover => exact absurd hover (Nat.not_le.mpr hw.stop)
  | counted hrange _ => exact absurd hrange (Nat.not_lt.mpr hw.wraps)
  | atEnd _ _ hpos _ _ => exact absurd hpos (by decide)

end GenericKernel.Fs
