import GenericKernel.Fs.Volume

/-!
# What a reader may see

Extents are reused without scrubbing, a shrunk file keeps its old bytes behind its
end, and growing copies whole sectors. `no_stale_data` says that a reader does not
see any of it: a byte of a file is zero or what was last written there, the same
operations on another device return the same bytes, and so do other operations
with the same history of this one file.

* `History` records, beside a run, what the operations on a file have made of it.
* `InPlace` excludes a move of `ensure_capacity` that is refused at 2^32 sectors
  with its run ending inside the file: the copy may leave bytes at positions where
  they were never written, and `refused_growth_misplaces` is a run that does so.
* `Intact` excludes also a move onto the file's own bytes, as in `growth_loses_byte`.
  It leaves zeros, but where the free sectors are depends on the other files.
-/

namespace GenericKernel.Fs

open GenericKernel.Lib

/-- What the operations on one file have made of it: its length, and the byte last
written at each position. -/
structure History where
  len : Nat
  last : Nat → Option UInt8
  past : ∀ p, len ≤ p → last p = none

namespace History

def fresh : History := ⟨0, fun _ => none, fun _ _ => rfl⟩

def write (h : History) (offset : Nat) (data : List UInt8) : History where
  len := max h.len (offset + data.length)
  last p := if offset ≤ p ∧ p < offset + data.length then data[p - offset]? else h.last p
  past p hp := by
    rw [if_neg (by omega)]
    exact h.past p (by omega)

/-- What is cut off is forgotten. -/
def truncate (h : History) (len : Nat) : History where
  len := len
  last p := if len ≤ p then none else h.last p
  past _ hp := if_pos hp

/-- The file as its history tells it. -/
def bytes (h : History) : List UInt8 := (List.range h.len).map fun p => (h.last p).getD 0

end History

abbrev Histories := Nat → History

namespace Histories

def created (H : Histories) : Except VfsError Nat → Histories
  | .ok i => Function.update H i .fresh
  | .error _ => H

def stored {α : Type} (H : Histories) (inode : Nat) (h : History) : Except VfsError α → Histories
  | .ok _ => Function.update H inode h
  | .error _ => H

/-- An operation that goes through adds to the history of its file. -/
def after (H : Histories) : (op : Op) → Except VfsError op.Result → Histories
  | .createFile _ _, r => H.created r
  | .createDir _ _, r => H.created r
  | .write inode offset data, r => H.stored inode ((H inode).write offset data) r
  | .truncate inode len, r => H.stored inode ((H inode).truncate len) r
  | .remove _ _, _ => H

end Histories

/-- Runs of a fresh filesystem, with the operations and the histories. `ok` is what
is asked of each step. -/
inductive Written (sectors : Nat) (ok : Disk → Op → Prop) : List Op → Disk → Histories → Prop
  | fresh {d d₀ : Disk} : sectors < wordSize →
      evaluate sectors .outOfRange (mount sectors true) d = (.ok true, d₀) →
      Written sectors ok [] d₀ fun _ => .fresh
  | step {ops : List Op} {d : Disk} {H : Histories} {op : Op} : Written sectors ok ops d H →
      op.InRange → ok d op →
      Written sectors ok (ops ++ [op]) (step sectors d op)
        (H.after op (evaluate sectors .outOfRange (op.prog sectors) d).1)

/-- No refused growth moves bytes inside the file. -/
def InPlace (sectors : Nat) (d : Disk) (op : Op) : Prop :=
  ∀ T, Shows d T → op.Undisturbed sectors T

/-- A move to `needed` sectors covers no byte of the file but zeros and, if it is not
refused, bytes from `offset` on. -/
def MovesOverZeros (sectors : Nat) (d : Disk) (T : Table) (inode offset needed : Nat) : Prop :=
  inode ∈ inodeNumbers → (T inode).kind = 1 → GrowthKeeps sectors d T inode needed
    (if needed < 2 ^ 32 then min (T inode).len.toNat offset else (T inode).len.toNat)

def Op.MovesOverZeros (sectors : Nat) (d : Disk) (T : Table) : Op → Prop
  | write inode offset data =>
      Fs.MovesOverZeros sectors d T inode offset (sectorsForLen (offset + data.length))
  | truncate inode len => Fs.MovesOverZeros sectors d T inode len (sectorsForLen len)
  | _ => True

/-- No growth loses or moves a byte of the file. -/
def Intact (sectors : Nat) (d : Disk) (op : Op) : Prop :=
  InPlace sectors d op ∧ ∀ T, Shows d T → op.MovesOverZeros sectors d T

/-- The histories tell the lengths of the files and their bytes, but for bytes that
were lost and are zero. -/
def Traced (exact : Prop) (V : Volume) (H : Histories) : Prop :=
  ∀ i ∈ inodeNumbers, (V.table i).kind = 1 → (V.table i).len.toNat = (H i).len ∧
    ∀ p < (H i).len, V.bytes i p = ((H i).last p).getD 0 ∨ ¬ exact ∧ V.bytes i p = 0

section Traced

variable {sectors inode offset : Nat} {d d' : Disk} {V : Volume} {H H' : Histories}
  {data : List UInt8} {newLen : UInt64} {exact : Prop}

/-- A record without bytes is put in. -/
theorem Traced.record {e : DiskInode} (h : Traced exact V H)
    (hempty : e.kind = 1 → e.len = 0 ∧ (H' inode).len = 0) (hH : ∀ i ≠ inode, H' i = H i) :
    Traced exact { V with table := Function.update V.table inode e } H' := by
  intro j hj hfile
  dsimp only at hfile ⊢
  by_cases heq : j = inode
  · rw [heq, Function.update_self] at hfile ⊢
    obtain ⟨hlen, hnone⟩ := hempty hfile
    rw [hlen, hnone]
    exact ⟨rfl, fun p hp => absurd hp (Nat.not_lt_zero p)⟩
  · rw [Function.update_of_ne heq] at hfile ⊢
    rw [hH j heq]
    exact h j hj hfile

/-- The move leaves a byte alone or clears it. -/
theorem moved_eq (V : Volume) (inode a needed p : Nat) :
    V.moved inode a needed p = V.bytes inode p ∨ V.moved inode a needed p = 0 := by
  unfold Volume.moved
  split
  · exact .inr rfl
  · exact .inl rfl

/-- A move over zeros changes nothing. -/
theorem Holds.moved_eq {a needed bound p : Nat} (hd : Holds sectors d V) (hi : inode ∈ inodeNumbers)
    (hkind : (V.table inode).kind = 1) (hless : (V.table inode).sectors < needed)
    (ha : IsLeast {a | FreeRun sectors V.table inode needed a} a)
    (hkeeps : GrowthKeeps sectors d V.table inode needed bound) (hp : p < bound)
    (hlen : p < (V.table inode).len.toNat) : V.moved inode a needed p = V.bytes inode p := by
  unfold Volume.moved
  split
  · rename_i hcover
    rw [← hd.bytes inode hi hkind p hlen, hkeeps hless a ha p hp hcover.1 hcover.2]
  · rfl

theorem Traced.moved {a needed : Nat} (h : Traced exact V H)
    (hkeeps : exact → ∀ p < (V.table inode).len.toNat,
      V.moved inode a needed p = V.bytes inode p) :
    Traced exact { V with bytes := Function.update V.bytes inode (V.moved inode a needed) } H := by
  intro j hj hfile
  obtain ⟨hlen, hbytes⟩ := h j hj hfile
  refine ⟨hlen, fun p hp => ?_⟩
  dsimp only
  by_cases heq : j = inode
  · subst heq
    rw [Function.update_self]
    by_cases hexact : exact
    · rw [hkeeps hexact p (by omega)]
      exact hbytes p hp
    · rcases moved_eq V j a needed p with hsame | hzero
      · rw [hsame]
        exact hbytes p hp
      · exact .inr ⟨hexact, hzero⟩
  · rw [Function.update_of_ne heq]
    exact hbytes p hp

/-- The data goes to the volume and to the history. -/
theorem Traced.put {e : DiskInode} {bytes : Nat → UInt8} {h' : History} (h : Traced exact V H)
    (hi : inode ∈ inodeNumbers) (hkind : (V.table inode).kind = 1)
    (hlen : e.len = (V.table inode).len)
    (hnew : newLen.toNat ≤ max (V.table inode).len.toNat (offset + data.length))
    (hbytes : ∀ p < (V.table inode).len.toNat, ¬ (offset ≤ p ∧ p < offset + data.length) →
      bytes p = V.bytes inode p ∨ ¬ exact ∧ bytes p = 0) (hlen' : newLen.toNat = h'.len)
    (hown : ∀ p < h'.len, h'.last p =
      if offset ≤ p ∧ p < offset + data.length then data[p - offset]? else (H inode).last p) :
    Traced exact (V.put inode e bytes offset data newLen) (Function.update H inode h') := by
  obtain ⟨hold, htraced⟩ := h inode hi hkind
  intro j hj hfile
  dsimp only [Volume.put] at hfile ⊢
  by_cases heq : j = inode
  · subst heq
    rw [Function.update_self, Function.update_self, Function.update_self]
    refine ⟨hlen', fun p hp => ?_⟩
    rw [hown p hp]
    by_cases hput : offset ≤ p ∧ p < offset + data.length
    · rw [if_pos hput, if_pos hput]
      exact .inl rfl
    rw [if_neg hput, if_neg hput]
    by_cases hgap : e.len.toNat ≤ p ∧ p < offset
    · rw [if_pos hgap, (H j).past p (by rw [← hold, ← hlen]; exact hgap.1)]
      exact .inl rfl
    · -- what is neither data nor gap was in the file before
      rw [if_neg hgap]
      rw [hlen] at hgap
      have hp' : p < (V.table j).len.toNat := by omega
      rcases hbytes p hp' hput with hsame | hzero
      · rw [hsame]
        exact htraced p (by omega)
      · exact .inr hzero
  · rw [Function.update_of_ne heq] at hfile ⊢
    rw [Function.update_of_ne heq, Function.update_of_ne heq]
    exact h j hj hfile

theorem Traced.create {parent : Nat} {name : String} {kind : UInt8} {r : Except VfsError Nat}
    (h : Traced exact V H) (hc : Created d V.table parent name kind r d') :
    Traced exact (V.create parent name kind) (H.created r) := by
  rcases Volume.create_cases hc with ⟨hsame, _, e, rfl⟩ | ⟨i, _, rfl, _, hnew⟩
  · rw [hsame]
    exact h
  · rw [hnew]
    refine h.record (fun _ => ⟨rfl, ?_⟩) fun j hj => Function.update_of_ne hj _ _
    exact congrArg History.len (Function.update_self i _ H)

theorem Traced.remove {parent : Nat} {name : String} {r : Except VfsError Unit}
    (h : Traced exact V H) (hN : Names V.table) (hr : Removed d V.table parent name r d') :
    Traced exact (V.remove parent name) H := by
  rcases Volume.remove_cases hN hr with ⟨hsame, _⟩ | ⟨i, _, _, hnew⟩
  · rw [hsame]
    exact h
  · rw [hnew]
    exact h.record (fun hkind => absurd hkind (by decide)) fun _ _ => rfl

/-- `write` and `truncate`, with the history `h'` that they leave. -/
theorem Traced.store {α : Type} {value : α} {r : Except VfsError α} {h' : History}
    (h : Traced exact V H) (hd : Holds sectors d V)
    (hrange : offset + data.length + SECTOR_SIZE - 1 < wordSize)
    (hnew : newLen.toNat ≤ max (V.table inode).len.toNat (offset + data.length))
    (hzeros : exact → MovesOverZeros sectors d V.table inode offset
      (sectorsForLen (offset + data.length)))
    (hs : Stored sectors d V.table inode offset data newLen value r d')
    (hlen' : (V.table inode).len.toNat = (H inode).len → newLen.toNat = h'.len)
    (hown : ∀ p < h'.len, h'.last p =
      if offset ≤ p ∧ p < offset + data.length then data[p - offset]? else (H inode).last p) :
    Traced exact (V.store sectors inode offset data newLen) (H.stored inode h' r) := by
  cases hs with
  | notFile hnot =>
      rw [Volume.store, if_neg hnot]
      exact h
  | noRoom hi hkind hcapacity =>
      cases hcapacity with
      | full hless hnone =>
          rw [Volume.store_full hi hkind hless hnone]
          exact h
      | tooLarge hless hlarge ha =>
          rw [Volume.store_tooLarge hi hkind hless hlarge ha]
          refine h.moved fun hexact p hp => ?_
          have hkeeps := hzeros hexact hi hkind
          rw [if_neg (Nat.not_lt.mpr hlarge)] at hkeeps
          exact hd.moved_eq hi hkind hless ha hkeeps hp hp
  | done hi hkind hcapacity =>
      have hlen := hlen' (h inode hi hkind).1
      cases hcapacity with
      | fits hfits =>
          rw [Volume.store_fits hi hkind hfits]
          exact h.put hi hkind rfl hnew (fun _ _ _ => .inl rfl) hlen hown
      | moved hless hsmall ha =>
          rw [Volume.store_moved hi hkind hless hsmall ha]
          refine h.put hi hkind rfl hnew (fun p hp hput => ?_) hlen hown
          by_cases hexact : exact
          · -- the new end lies past the old extent, so `p` lies before the data
            have hholds := hd.consistent.layout.holds inode hi hkind
            have hpast : SECTOR_SIZE * (V.table inode).sectors < offset + data.length := by
              by_contra hnot
              have := (sectorsForLen_spec hrange).2.2 _ (Nat.not_lt.mp hnot)
              omega
            have hkeeps := hzeros hexact hi hkind
            rw [if_pos hsmall] at hkeeps
            exact .inl (hd.moved_eq hi hkind hless ha hkeeps (by omega) hp)
          · rcases moved_eq V inode _ _ p with hsame | hzero
            · exact .inl hsame
            · exact .inr ⟨hexact, hzero⟩

end Traced

/-- **Step**: the histories account for the bytes. -/
theorem Traced.step {sectors : Nat} {d : Disk} {V : Volume} {H : Histories} {op : Op} {exact : Prop}
    (h : Traced exact V H) (hd : Holds sectors d V) (hrange : op.InRange)
    (hzeros : exact → op.MovesOverZeros sectors d V.table) :
    Traced exact (V.step sectors op)
      (H.after op (evaluate sectors .outOfRange (op.prog sectors) d).1) := by
  obtain ⟨r, hdoes, heval⟩ := step_does op hd.consistent hrange
  rw [heval]
  cases op with
  | createFile parent name => exact h.create hdoes
  | createDir parent name => exact h.create hdoes
  | write inode offset data =>
      have hnew : (max (V.table inode).len (UInt64.ofNat (offset + data.length))).toNat =
          max (V.table inode).len.toNat (offset + data.length) := by
        rw [toNat_max, toNat_ofNat_end hrange]
      refine h.store hd hrange hnew.le hzeros hdoes (fun hlen => ?_) fun p _ => rfl
      rw [hnew, hlen]
      rfl
  | truncate inode len =>
      have hnew : (UInt64.ofNat len).toNat = len := toNat_ofNat_end hrange
      refine h.store hd hrange ?_ hzeros hdoes (fun _ => hnew) fun p hp => ?_
      · rw [hnew]
        exact le_max_right _ _
      · replace hp : p < len := hp
        rw [if_neg (by rw [List.length_nil]; omega)]
        exact if_neg (Nat.not_le.mpr hp)
  | remove parent name => exact h.remove hd.consistent.names hdoes

/-- **Run**: the disk holds the volume that the operations make of a blank one. -/
theorem Written.holds {sectors : Nat} {ok : Disk → Op → Prop} {ops : List Op} {d : Disk}
    {H : Histories} (exact : Prop) (h : Written sectors ok ops d H)
    (hplace : ∀ d op, ok d op → InPlace sectors d op)
    (hzeros : exact → ∀ d op, ok d op → Intact sectors d op) :
    Holds sectors d (ops.foldl (Volume.step sectors) .blank) ∧
      Traced exact (ops.foldl (Volume.step sectors) .blank) H := by
  induction h with
  | fresh hword hmount =>
      obtain ⟨hsize, rfl⟩ := mount_formats hmount
      have hholds := holds_formatted hsize hword
      refine ⟨hholds _, fun i hi hfile => ?_⟩
      have hunused : (blankTable i).kind = 1 := hfile
      rw [blankTable_unused i hi] at hunused
      exact absurd hunused (by decide)
  | step _ hrange hok ih =>
      rw [List.foldl_append]
      obtain ⟨hholds, htraced⟩ := ih
      have hshows := hholds.consistent.shows
      exact ⟨hholds.step hrange (hplace _ _ hok _ hshows),
        htraced.step hholds hrange fun hexact => (hzeros hexact _ _ hok).2 _ hshows⟩

/-- Only files are read. -/
theorem file_of_read {sectors inode offset bufferLen : Nat} {d d₁ : Disk} {T : Table}
    {bytes : List UInt8} (h : Consistent sectors d T)
    (hread : evaluate sectors .outOfRange (read inode offset bufferLen) d = (.ok bytes, d₁)) :
    inode ∈ inodeNumbers ∧ (T inode).kind = 1 := by
  have hm : Mounted (perfect sectors) d T := Consistent.mounted h
  rcases openFile_runs hm trivial h.names.root inode with ⟨hi, hfile, _⟩ | ⟨_, e, hruns⟩
  · exact ⟨hi, hfile⟩
  · have hfails : evaluate sectors .outOfRange (read inode offset bufferLen) d = (.error e, d) :=
      evaluate_bind_error hruns.evaluate _
    rw [hfails] at hread
    cases hread

/-- Where nothing is lost, a file is what its history tells. -/
theorem Written.read_eq {sectors inode offset bufferLen : Nat} {ops : List Op} {d d₁ : Disk}
    {H : Histories} {bytes : List UInt8} (h : Written sectors (Intact sectors) ops d H)
    (hread : evaluate sectors .outOfRange (read inode offset bufferLen) d = (.ok bytes, d₁)) :
    bytes = ((H inode).bytes.drop offset).take bufferLen := by
  obtain ⟨hholds, htraced⟩ := h.holds True (fun _ _ hok => hok.1) fun _ _ _ hok => hok
  obtain ⟨hi, hfile⟩ := file_of_read hholds.consistent hread
  obtain ⟨hlen, hbytes⟩ := htraced inode hi hfile
  rw [read_evaluate hholds.consistent hi hfile, hholds.contents hi hfile, hlen] at hread
  obtain rfl := Except.ok.inj (Prod.mk.inj hread).1
  rw [History.bytes, List.map_congr_left fun p hp => ?_]
  exact (hbytes p (List.mem_range.mp hp)).resolve_right fun hnot => hnot.1 trivial

theorem Written.mono {sectors : Nat} {ok ok' : Disk → Op → Prop} {ops : List Op} {d : Disk}
    {H : Histories} (h : Written sectors ok ops d H) (hok : ∀ d op, ok d op → ok' d op) :
    Written sectors ok' ops d H := by
  induction h with
  | fresh hword hmount => exact .fresh hword hmount
  | step _ hrange hstep ih => exact ih.step hrange (hok _ _ hstep)

/-- A run of operations in range goes through. -/
theorem exists_written {sectors : Nat} {ok : Disk → Op → Prop} {d d₀ : Disk}
    (hword : sectors < wordSize)
    (hmount : evaluate sectors .outOfRange (mount sectors true) d = (.ok true, d₀))
    (ops : List Op) (h : ∀ op ∈ ops, op.InRange ∧ ∀ d, ok d op) :
    ∃ H, Written sectors ok ops (ops.foldl (step sectors) d₀) H := by
  induction ops using List.reverseRecOn with
  | nil => exact ⟨_, .fresh hword hmount⟩
  | append_singleton ops op ih =>
      obtain ⟨H, hH⟩ := ih fun op' hop' => h op' (List.mem_append_left _ hop')
      have hop := h op (List.mem_append_right _ List.mem_cons_self)
      rw [List.foldl_append]
      exact ⟨_, hH.step hop.1 (hop.2 _)⟩

theorem written_fiveFile :
    ∃ H, Written 32 (Intact 32) [.createFile 1 "f", .write 2 0 [5]] fiveFile H := by
  have hrange : 0 + [(5 : UInt8)].length + SECTOR_SIZE - 1 < wordSize := lt_wordSize (by decide)
  have hone : sectorsForLen (0 + [(5 : UInt8)].length) = 1 := sectorsForLen_eq hrange
  refine exists_written (lt_wordSize (by decide)) mount_zeros _ ?_
  simp only [List.forall_mem_cons]
  refine ⟨⟨trivial, fun d => ⟨fun _ _ => trivial, fun _ _ => trivial⟩⟩, ⟨hrange, fun d =>
    ⟨fun T _ _ _ hlarge => ?_, fun T _ _ _ _ a _ p hp => ?_⟩⟩, fun op hop => (by cases hop)⟩
  · rw [hone] at hlarge
    exact absurd hlarge (by decide)
  · rw [hone, if_pos (by decide), Nat.min_zero] at hp
    exact absurd hp (Nat.not_lt_zero p)

/-- **No stale data.** After every run of operations on a freshly formatted
device, a byte that `read` returns is zero or the one last written there, and the
same operations on another device lead to the same bytes. Where no growth loses a
byte, so does every run with the same history of this file, whatever else was
done on whatever device. -/
theorem no_stale_data {sectors inode offset bufferLen : Nat} {ops : List Op} {d d₁ : Disk}
    {H : Histories} {bytes : List UInt8} (h : Written sectors (InPlace sectors) ops d H)
    (hread : evaluate sectors .outOfRange (read inode offset bufferLen) d = (.ok bytes, d₁)) :
    (∀ k b, bytes[k]? = some b → b = 0 ∨ (H inode).last (offset + k) = some b) ∧
    (∀ d' H', Written sectors (InPlace sectors) ops d' H' →
      (evaluate sectors .outOfRange (read inode offset bufferLen) d').1 = .ok bytes) ∧
    (Written sectors (Intact sectors) ops d H →
      ∀ sectors' ops' d' H' inode' bytes' d₁', Written sectors' (Intact sectors') ops' d' H' →
        H' inode' = H inode →
        evaluate sectors' .outOfRange (read inode' offset bufferLen) d' = (.ok bytes', d₁') →
        bytes' = bytes) := by
  obtain ⟨hholds, htraced⟩ := h.holds False (fun _ _ hok => hok) False.elim
  obtain ⟨hi, hfile⟩ := file_of_read hholds.consistent hread
  refine ⟨fun k b hb => ?_, fun d' H' h' => ?_, fun hintact sectors' ops' d' H' inode' bytes' d₁' h'
    hsame hread' => ?_⟩
  · rw [read_evaluate hholds.consistent hi hfile, hholds.contents hi hfile] at hread
    obtain rfl := Except.ok.inj (Prod.mk.inj hread).1
    rw [List.getElem?_take] at hb
    split at hb
    · rw [List.getElem?_drop, List.getElem?_map] at hb
      obtain ⟨p, hp, rfl⟩ := Option.map_eq_some_iff.mp hb
      obtain ⟨hlt, rfl⟩ := List.getElem?_eq_some_iff.mp hp
      obtain ⟨hlen, hbytes⟩ := htraced inode hi hfile
      rw [List.length_range, hlen] at hlt
      rw [List.getElem_range]
      rcases hbytes _ hlt with heq | ⟨_, hzero⟩
      · rw [heq]
        cases (H inode).last (offset + k) with
        | none => exact .inl rfl
        | some b => exact .inr rfl
      · exact .inl hzero
    · cases hb
  · have hholds' := (h'.holds False (fun _ _ hok => hok) False.elim).1
    rw [read_evaluate hholds.consistent hi hfile, hholds.contents hi hfile] at hread
    rw [read_evaluate hholds'.consistent hi hfile, hholds'.contents hi hfile]
    exact (Prod.mk.inj hread).1
  · rw [hintact.read_eq hread, h'.read_eq hread', hsame]

/-- A file of one byte, and the same file on a device where a second one was made. -/
theorem no_stale_data_secondFile : ∃ H d' H',
    Written 32 (Intact 32) [.createFile 1 "f", .write 2 0 [5]] fiveFile H ∧
    Written 32 (Intact 32) [.createFile 1 "f", .write 2 0 [5], .createFile 1 "g"] d' H' ∧
    H' 2 = H 2 ∧ evaluate 32 .outOfRange (read 2 0 4) fiveFile = (.ok [5], fiveFile) ∧
    evaluate 32 .outOfRange (read 2 0 4) d' = (.ok [5], d') := by
  obtain ⟨_, hfive, hC⟩ := fiveFile_spec
  obtain ⟨H, hH⟩ := written_fiveFile
  obtain ⟨heval, hC'⟩ := create_oneFile (.inl rfl) (by decide)
    (show fiveEntry.nameText = .ok "f" from nameText_newEntry 1 1 validName_f) validName_g (by decide)
    hC
  have hread := read_evaluate hC two_mem rfl 0 4
  rw [hfive] at hread
  have hread' := read_evaluate hC' two_mem rfl 0 4
  have hH' := @Written.step 32 (Intact 32) _ _ _ (.createFile 1 "g") hH trivial
    ⟨fun _ _ => trivial, fun _ _ => trivial⟩
  rw [step_eq (.createFile 1 "g") heval, show evaluate 32 .outOfRange
    ((Op.createFile 1 "g").prog 32) fiveFile = _ from heval] at hH'
  have hsame : H.created (.ok 3) 2 = H 2 :=
    Function.update_of_ne (show 2 ≠ 3 by decide) History.fresh H
  have hbytes := (no_stale_data (hH.mono fun _ _ hok => hok.1) hread).2.2 hH _ _ _ _ _ _ _ hH' hsame
    hread'
  rw [hbytes] at hread'
  exact ⟨H, _, _, hH, hH', hsame, hread, hread'⟩

/-! ## A refused growth that moves bytes -/

namespace Misplaced

/-- Two files, empty first, then of 2^31 and of 2^31 + 1 sectors. -/
def emptyF : DiskInode := newEntry 1 "f" 1

def emptyG : DiskInode := newEntry 1 "g" 1

def largeF : DiskInode := { relocated emptyF DATA_START (2 ^ 31) with len := UInt64.ofNat (2 ^ 40) }

def largeG : DiskInode :=
  { relocated emptyG (DATA_START + 2 ^ 31) (2 ^ 31 + 1) with
    len := max emptyG.len (UInt64.ofNat (2 ^ 40 + 1)) }

theorem device_lt_wordSize : 2 ^ 33 < wordSize := lt_wordSize (by decide)

theorem largeF_first : largeF.first = DATA_START := rfl

theorem largeF_sectors : largeF.sectors = 2 ^ 31 := UInt32.toNat_ofNat_of_lt' (by decide)

theorem largeG_first : largeG.first = DATA_START + 2 ^ 31 := rfl

theorem largeG_sectors : largeG.sectors = 2 ^ 31 + 1 := UInt32.toNat_ofNat_of_lt' (by decide)

theorem least_f :
    IsLeast {x | FreeRun (2 ^ 33) (pair emptyF emptyG) 2 (2 ^ 31) x} DATA_START :=
  ⟨(freeRun_pair _ _).mpr (by decide), fun _ hx => hx.low⟩

theorem least_g :
    IsLeast {x | FreeRun (2 ^ 33) (pair largeF emptyG) 3 (2 ^ 31 + 1) x} (DATA_START + 2 ^ 31) := by
  refine ⟨(freeRun_pair _ _).mpr (by decide), fun x hx => ?_⟩
  obtain ⟨hlow, _, hfree, _⟩ := (freeRun_pair _ _).mp hx
  have := hfree (by decide) (by decide)
  rw [largeF_first, largeF_sectors] at this
  generalize (2 : Nat) ^ 31 = k at this ⊢
  omega

theorem least_refused :
    IsLeast {x | FreeRun (2 ^ 33) (pair DiskInode.empty largeG) 3 (2 ^ 32) x} DATA_START :=
  ⟨(freeRun_pair _ _).mpr (by decide), fun _ hx => hx.low⟩

theorem creates_f : Creates blankTable 1 "f" 2 where
  valid := validName_f
  inside := one_inTable
  directory := rfl
  vacant j hj := hj.live (blankTable_unused j hj.number)
  unused := ⟨⟨two_mem, rfl⟩, fun _ hi => (mem_inodeNumbers.mp hi.1).1⟩

theorem creates_g : Creates (Function.update blankTable 2 emptyF) 1 "g" 3 where
  valid := validName_g
  inside := one_inTable
  directory := rfl
  vacant := not_isChild_oneFile (nameText_newEntry 1 1 validName_f) (by decide)
  unused := isLeast_oneFile (by decide)

theorem removes_f : Removes (pair largeF largeG) 1 "f" 2 where
  child := ⟨two_mem, by rw [pair_two]; decide, by rw [pair_two]; rfl, by
    rw [pair_two]
    exact nameText_newEntry 1 1 validName_f⟩
  leaf j hj hlive hparent := by
    by_cases h2 : j = 2
    · rw [h2, pair_two] at hparent
      exact absurd hparent (by decide)
    by_cases h3 : j = 3
    · rw [h3, pair_three] at hparent
      exact absurd hparent (by decide)
    · rw [pair_of_ne _ _ h2 h3] at hlive
      exact hlive (blankTable_unused j hj)

/-- The two files are made. -/
def setup : List Op :=
  [.createFile 1 "f", .createFile 1 "g", .truncate 2 (2 ^ 40), .write 3 (2 ^ 40) [7]]

theorem sectorsForLen_f : sectorsForLen (2 ^ 40) = 2 ^ 31 :=
  sectorsForLen_eq (lt_wordSize (by decide))

theorem sectorsForLen_g : sectorsForLen (2 ^ 40 + 1) = 2 ^ 31 + 1 :=
  sectorsForLen_eq (lt_wordSize (by decide))

theorem sectorsForLen_refused : sectorsForLen (2 ^ 41) = 2 ^ 32 :=
  sectorsForLen_eq (lt_wordSize (by decide))

theorem step_growF (B : Nat → Nat → UInt8) :
    ∃ B', Volume.step (2 ^ 33) ⟨pair emptyF emptyG, B⟩ (.truncate 2 (2 ^ 40)) =
      ⟨pair largeF emptyG, B'⟩ := by
  have hneed : sectorsForLen (2 ^ 40 + ([] : List UInt8).length) = 2 ^ 31 := sectorsForLen_f
  have hentry : (⟨pair emptyF emptyG, B⟩ : Volume).table 2 = emptyF := pair_two emptyF emptyG
  have hstore := @Volume.store_moved (2 ^ 33) 2 DATA_START ⟨pair emptyF emptyG, B⟩ (2 ^ 40) []
    (UInt64.ofNat (2 ^ 40)) two_mem (by rw [hentry]; rfl) (by rw [hneed, hentry]; decide)
    (by rw [hneed]; decide) (by rw [hneed]; exact least_f)
  rw [hneed, hentry] at hstore
  exact ⟨_, hstore.trans (congrArg (Volume.mk · _) (update_pair_two emptyF emptyG largeF))⟩

theorem step_growG (B : Nat → Nat → UInt8) :
    ∃ B', Volume.step (2 ^ 33) ⟨pair largeF emptyG, B⟩ (.write 3 (2 ^ 40) [7]) =
      ⟨pair largeF largeG, B'⟩ ∧ B' 3 (2 ^ 40) = 7 := by
  have hneed : sectorsForLen (2 ^ 40 + [(7 : UInt8)].length) = 2 ^ 31 + 1 := sectorsForLen_g
  have hentry : (⟨pair largeF emptyG, B⟩ : Volume).table 3 = emptyG := pair_three largeF emptyG
  have hstore := @Volume.store_moved (2 ^ 33) 3 (DATA_START + 2 ^ 31) ⟨pair largeF emptyG, B⟩
    (2 ^ 40) [7] (max emptyG.len (UInt64.ofNat (2 ^ 40 + [(7 : UInt8)].length))) three_mem
    (by rw [hentry]; rfl) (by rw [hneed, hentry]; decide) (by rw [hneed]; decide)
    (by rw [hneed]; exact least_g)
  rw [hneed, hentry] at hstore
  refine ⟨_, hstore.trans (congrArg (Volume.mk · _) (update_pair_three largeF emptyG largeG)), ?_⟩
  exact (congrFun (Function.update_self 3 _ B) (2 ^ 40)).trans (if_pos (by decide))

theorem volume_setup :
    ∃ bytes, setup.foldl (Volume.step (2 ^ 33)) .blank = ⟨pair largeF largeG, bytes⟩ ∧
      bytes 3 (2 ^ 40) = 7 := by
  have hstep₁ : Volume.step (2 ^ 33) .blank (.createFile 1 "f") =
      ⟨Function.update blankTable 2 emptyF, fun _ _ => 0⟩ := Volume.create_eq creates_f 1
  have hstep₂ : Volume.step (2 ^ 33) ⟨Function.update blankTable 2 emptyF, fun _ _ => 0⟩
      (.createFile 1 "g") = ⟨pair emptyF emptyG, fun _ _ => 0⟩ :=
    @Volume.create_eq _ _ _ ⟨_, fun _ _ => 0⟩ creates_g 1
  obtain ⟨B₃, hstep₃⟩ := step_growF fun _ _ => 0
  obtain ⟨B₄, hstep₄, hbyte⟩ := step_growG B₃
  refine ⟨B₄, ?_, hbyte⟩
  simp only [setup, List.foldl_cons, List.foldl_nil, hstep₁, hstep₂, hstep₃, hstep₄]

/-- The second file is left alone, in the second half of the device. -/
theorem holds_setup {d : Disk} {H : Histories} (h : Written (2 ^ 33) (InPlace (2 ^ 33)) setup d H) :
    ∃ bytes, bytes 3 (2 ^ 40) = 7 ∧
      Holds (2 ^ 33) (step (2 ^ 33) d (.remove 1 "f")) ⟨pair DiskInode.empty largeG, bytes⟩ := by
  obtain ⟨bytes, hvolume, hbyte⟩ := volume_setup
  have hholds := (h.holds False (fun _ _ hok => hok) False.elim).1
  rw [hvolume] at hholds
  have hremove := @Volume.remove_eq _ _ _ ⟨pair largeF largeG, bytes⟩ hholds.consistent.names removes_f
  rw [update_pair_two] at hremove
  have hnext := @Holds.step (2 ^ 33) d _ (.remove 1 "f") hholds trivial trivial
  exact ⟨bytes, hbyte, hremove ▸ hnext⟩

theorem largeG_len : largeG.len.toNat = 2 ^ 40 + 1 := by
  have hrange : 2 ^ 40 + 1 + SECTOR_SIZE - 1 < wordSize := lt_wordSize (by decide)
  show (max emptyG.len (UInt64.ofNat (2 ^ 40 + 1))).toNat = 2 ^ 40 + 1
  rw [toNat_max, toNat_ofNat_end hrange]
  exact max_eq_right (Nat.zero_le _)

/-- The run starts before the file and ends inside it: the file's last sector is
copied over its first. -/
theorem flatByte_refused {d : Disk} :
    flatByte (relocate d largeG DATA_START (2 ^ 32)) largeG.first 0 =
      flatByte d largeG.first (2 ^ 40) := by
  have hindex : 2 ^ 40 / SECTOR_SIZE = 2 ^ 31 := rfl
  have hrest : 2 ^ 40 % SECTOR_SIZE = 0 := rfl
  have hsector : relocate d largeG DATA_START (2 ^ 32) (largeG.first + 0 / SECTOR_SIZE) =
      d (largeG.first + 2 ^ 31) := by
    rw [Nat.zero_div, Nat.add_zero, relocate, copyBlocks, largeG_first, largeG_sectors,
      if_pos (by decide), Nat.add_sub_cancel_left]
    exact if_neg (by decide)
  unfold flatByte
  rw [hsector, hindex, hrest]
  rfl

theorem refused_moves {d : Disk} {bytes : Nat → Nat → UInt8}
    (h : Holds (2 ^ 33) d ⟨pair DiskInode.empty largeG, bytes⟩) (hbyte : bytes 3 (2 ^ 40) = 7) :
    evaluate (2 ^ 33) .outOfRange (read 3 0 1) (step (2 ^ 33) d (.truncate 3 (2 ^ 41))) =
      (.ok [7], step (2 ^ 33) d (.truncate 3 (2 ^ 41))) := by
  have hC : Consistent (2 ^ 33) d (pair DiskInode.empty largeG) := h.consistent
  have hentry := pair_three DiskInode.empty largeG
  have hfile : (pair DiskInode.empty largeG 3).kind = 1 := by
    rw [hentry]
    rfl
  have hrange : 2 ^ 41 + SECTOR_SIZE - 1 < wordSize := lt_wordSize (by decide)
  have hneed : sectorsForLen (2 ^ 41 + ([] : List UInt8).length) = 2 ^ 32 := sectorsForLen_refused
  obtain ⟨r, hdoes, _⟩ := step_does (.truncate 3 (2 ^ 41)) hC hrange
  generalize step (2 ^ 33) d (.truncate 3 (2 ^ 41)) = d' at hdoes ⊢
  have hmoved : d' = relocate d largeG DATA_START (2 ^ 32) ∧
      DiffersIn (Private (pair DiskInode.empty largeG) 3) d d' := by
    have hstored : Stored _ _ _ 3 (2 ^ 41) [] _ () r d' := hdoes
    cases hstored with
    | notFile hnot => exact absurd ⟨three_mem, hfile⟩ hnot
    | noRoom hi hkind hcapacity =>
        refine ⟨?_, @Capacity.differsIn (perfect (2 ^ 33)) _ _ _ _ _ _ hcapacity⟩
        rw [hneed] at hcapacity
        cases hcapacity with
        | full hless hnone => exact absurd least_refused.1 (hnone _)
        | tooLarge hless hlarge ha => rw [least_refused.unique ha, hentry]
    | done hi hkind hcapacity =>
        rw [hneed] at hcapacity
        cases hcapacity with
        | fits hfits =>
            rw [hentry, largeG_sectors] at hfits
            exact absurd hfits (by decide)
        | moved hless hsmall ha => exact absurd hsmall (Nat.lt_irrefl _)
  have hC' := hC.dirty hmoved.2
  have hhead := getElem?_contents (hC'.shows 3 (inTable_of_mem three_mem)) hfile (p := 0)
    (by rw [hentry, largeG_len]; decide)
  have hlast := h.bytes 3 three_mem hfile (2 ^ 40) (by
    show 2 ^ 40 < (pair DiskInode.empty largeG 3).len.toNat
    rw [hentry, largeG_len]
    decide)
  have hlast' : flatByte d largeG.first (2 ^ 40) = 7 := by
    rw [← hbyte, ← hentry]
    exact hlast
  rw [hentry, hmoved.1, flatByte_refused, hlast', ← hmoved.1] at hhead
  rw [read_evaluate hC' three_mem hfile, List.drop_zero, List.take_one, List.head?_eq_getElem?,
    hhead]
  rfl

end Misplaced

/-- What is never written has no history. -/
theorem Written.last_none {sectors inode p : Nat} {ok : Disk → Op → Prop} {ops : List Op}
    {d : Disk} {H : Histories} (h : Written sectors ok ops d H)
    (hops : ∀ offset data, .write inode offset data ∈ ops → p < offset) :
    (H inode).last p = none := by
  induction h with
  | fresh _ _ => rfl
  | @step ops d H op _ _ _ ih =>
      have hold := ih fun offset data hop => hops offset data (List.mem_append_left _ hop)
      generalize (evaluate sectors BlockError.outOfRange (op.prog sectors) d).1 = r
      have hstored : ∀ {α : Type} (i : Nat) (h' : History) (r : Except VfsError α),
          (i = inode → h'.last p = none) → (H.stored i h' r inode).last p = none := by
        intro α i h' r hnone
        cases r with
        | error e => exact hold
        | ok value =>
            show (Function.update H i h' inode).last p = none
            by_cases heq : inode = i
            · rw [heq, Function.update_self]
              exact hnone heq.symm
            · rw [Function.update_of_ne heq]
              exact hold
      have hcreated : ∀ r, (H.created r inode).last p = none := by
        intro r
        cases r with
        | error e => exact hold
        | ok i => exact hstored i .fresh (.ok ()) fun _ => rfl
      cases op with
      | createFile parent name => exact hcreated r
      | createDir parent name => exact hcreated r
      | write i offset data =>
          refine hstored i _ r fun heq => ?_
          have := hops offset data (List.mem_append_right _ (heq ▸ List.mem_cons_self))
          refine (if_neg (by omega)).trans ?_
          rw [heq]
          exact hold
      | truncate i len =>
          refine hstored i _ r fun heq => ?_
          show (if len ≤ p then none else (H i).last p) = none
          rw [heq, hold]
          split <;> rfl
      | remove parent name => exact hold

namespace Misplaced

/-- The hole is made, and the request refused. -/
def finish : List Op := [.remove 1 "f", .truncate 3 (2 ^ 41)]

theorem setup_inRange : ∀ op ∈ setup ++ finish, op.InRange := by
  have ha : 2 ^ 40 + SECTOR_SIZE - 1 < wordSize := lt_wordSize (by decide)
  have hb : 2 ^ 40 + [(7 : UInt8)].length + SECTOR_SIZE - 1 < wordSize := lt_wordSize (by decide)
  have hc : 2 ^ 41 + SECTOR_SIZE - 1 < wordSize := lt_wordSize (by decide)
  simp only [setup, finish, List.cons_append, List.nil_append, List.forall_mem_cons]
  exact ⟨trivial, trivial, ha, hb, trivial, hc,
    fun _ hop => absurd hop List.not_mem_nil⟩

theorem setup_inPlace : ∀ op ∈ setup, ∀ d, InPlace (2 ^ 33) d op := by
  simp only [setup, List.forall_mem_cons]
  refine ⟨fun _ _ _ => trivial, fun _ _ _ => trivial, fun _ T _ _ _ hlarge => ?_,
    fun _ T _ _ _ hlarge => ?_, fun _ hop => nomatch hop⟩
  · rw [sectorsForLen_f] at hlarge
    exact absurd hlarge (by decide)
  · have hneed : sectorsForLen (2 ^ 40 + [(7 : UInt8)].length) = 2 ^ 31 + 1 := sectorsForLen_g
    rw [hneed] at hlarge
    exact absurd hlarge (by decide)

theorem setup_writes {offset : Nat} {data : List UInt8}
    (h : .write 3 offset data ∈ setup ++ finish) : 0 < offset := by
  simp only [setup, finish, List.cons_append, List.nil_append, List.mem_cons, reduceCtorEq,
    List.not_mem_nil, false_or, or_false, Op.write.injEq] at h
  rw [h.2.1]
  decide

theorem run {d d₀ : Disk}
    (hmount : evaluate (2 ^ 33) .outOfRange (mount (2 ^ 33) true) d = (.ok true, d₀)) :
    ∃ ops d H, Written (2 ^ 33) (fun _ _ => True) ops d H ∧
      evaluate (2 ^ 33) .outOfRange (read 3 0 1) d = (.ok [7], d) ∧ (H 3).last 0 = none := by
  obtain ⟨H₁, h₁⟩ := exists_written device_lt_wordSize hmount setup fun op hop =>
    ⟨setup_inRange op (List.mem_append_left _ hop), setup_inPlace op hop⟩
  obtain ⟨bytes, hbyte, hholds⟩ := holds_setup h₁
  obtain ⟨H, h⟩ := @exists_written _ (fun _ _ => True) _ _ device_lt_wordSize hmount (setup ++ finish)
    fun op hop => ⟨setup_inRange op hop, fun _ => trivial⟩
  refine ⟨_, _, H, h, ?_, h.last_none fun _ _ => setup_writes⟩
  rw [List.foldl_append]
  simp only [finish, List.foldl_cons, List.foldl_nil]
  exact refused_moves hholds hbyte

end Misplaced

/-- On a device of 2^33 sectors: a file of 2^31 + 1 sectors behind a hole of 2^31
is to grow to 2^32 sectors. That is refused, and a byte of its last sector is then
read at position 0, where nothing was ever written. -/
theorem refused_growth_misplaces : ∃ ops d H,
    Written (2 ^ 33) (fun _ _ => True) ops d H ∧
    evaluate (2 ^ 33) .outOfRange (read 3 0 1) d = (.ok [7], d) ∧ (H 3).last 0 = none := by
  have hmount := @mount_evaluate_of_no_magic (2 ^ 33) (fun _ => zeroSector) (by decide) (by decide)
  exact Misplaced.run hmount

end GenericKernel.Fs
