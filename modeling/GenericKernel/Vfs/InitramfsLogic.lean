import Mathlib.Data.Finset.Card
import GenericKernel.Vfs.Initramfs
import GenericKernel.Vfs.Normalize
import GenericKernel.Vfs.RamFsRefines

/-!
# Unpacking what was packed

* `readItem_bytes` — the kernel reads a record back as it was appended, wherever it stands.
* `Accepts`, `Lays` — the records that fit a tree, and what one of them does to it; `place_lays`.
* `unpackFrom_lays` — the loop lays out all of them, by induction on the records that are left.
* `unpack_buildArchive` — so `unpack` inverts `buildArchive`, as long as there are inode numbers.
-/

namespace GenericKernel.Initramfs

open GenericKernel.Lib GenericKernel.VfsCore

/-! ## Reading a record back -/

namespace Record

def bytes (r : Record) : List UInt8 :=
  [r.kindByte] ++ leBytes 2 (nameBytes (relativePath r.path)).length ++ leBytes 4 r.data.length ++
    nameBytes (relativePath r.path) ++ r.data

/-- The lengths fit their fields. -/
structure Sized (r : Record) : Prop where
  path : (nameBytes (relativePath r.path)).length < 2 ^ 16
  data : r.data.length < 2 ^ 32

def item : Record → Item
  | file path data => .file (joinPath path) data
  | directory path => .directory (joinPath path)

/-- No record looks like the end mark. -/
theorem kindByte_ne_zero (r : Record) : r.kindByte ≠ 0 := by
  cases r with
  | file path data => exact (by decide : (1 : UInt8) ≠ 0)
  | directory path => exact (by decide : (2 : UInt8) ≠ 0)

end Record

theorem joinPath_eq_relativePath (cs : List String) : joinPath cs = "/" ++ relativePath cs := by
  unfold joinPath relativePath
  rw [← String.toList_inj, String.toList_append]
  simp only [String.toList_ofList]
  rfl

theorem appendRecords_eq {archive archive' : List UInt8} {records : List Record}
    (h : appendRecords archive records = some archive') :
    archive' = archive ++ records.flatMap Record.bytes ∧ ∀ r ∈ records, r.Sized := by
  induction records generalizing archive with
  | nil =>
    obtain rfl := Option.some.inj h
    exact ⟨(List.append_nil _).symm, fun _ hr => nomatch hr⟩
  | cons r records ih =>
    unfold appendRecords at h
    rw [List.foldlM_cons] at h
    obtain ⟨next, hnext, h⟩ := Option.bind_eq_some_iff.mp h
    unfold appendRecord at hnext
    split at hnext
    · rename_i hsized
      obtain rfl := Option.some.inj hnext
      obtain ⟨harchive, hrest⟩ := ih h
      refine ⟨?_, List.forall_mem_cons.mpr ⟨⟨hsized.1, hsized.2⟩, hrest⟩⟩
      rw [harchive, List.flatMap_cons, List.append_assoc]
      rfl
    · cases hnext

/-- The next bytes of an archive that goes on behind them. -/
theorem get_append {archive bytes rest : List UInt8} {offset : Nat}
    (h : archive.drop offset = bytes ++ rest) (hrest : rest ≠ []) :
    get archive offset bytes.length = .ok bytes ∧
      archive.drop (offset + bytes.length) = rest := by
  have hlength := congrArg List.length h
  have hpos := List.length_pos_iff.mpr hrest
  rw [List.length_drop, List.length_append] at hlength
  constructor
  · unfold get
    rw [if_pos (by omega), h, List.take_left]
  · rw [← List.drop_drop, h, List.drop_left]

/-- A number in its field. -/
theorem get_leBytes {archive rest : List UInt8} {offset width value : Nat}
    (h : archive.drop offset = leBytes width value ++ rest) (hrest : rest ≠ [])
    (hvalue : value < 256 ^ width) : ∃ bytes, get archive offset width = .ok bytes ∧
      leNat bytes = value ∧ archive.drop (offset + width) = rest := by
  obtain ⟨hget, hdrop⟩ := get_append h hrest
  rw [length_leBytes] at hget hdrop
  exact ⟨_, hget, by rw [leNat_leBytes, Nat.mod_eq_of_lt hvalue], hdrop⟩

theorem readU16_append {archive rest : List UInt8} {offset value : Nat}
    (h : archive.drop offset = leBytes 2 value ++ rest) (hrest : rest ≠ []) (hvalue : value < 2 ^ 16) :
    readU16 archive offset = .ok (value, offset + 2) ∧ archive.drop (offset + 2) = rest := by
  obtain ⟨bytes, hget, rfl, hdrop⟩ := get_leBytes h hrest hvalue
  unfold readU16
  rw [hget]
  exact ⟨rfl, hdrop⟩

theorem readU32_append {archive rest : List UInt8} {offset value : Nat}
    (h : archive.drop offset = leBytes 4 value ++ rest) (hrest : rest ≠ []) (hvalue : value < 2 ^ 32) :
    readU32 archive offset = .ok (value, offset + 4) ∧ archive.drop (offset + 4) = rest := by
  obtain ⟨bytes, hget, rfl, hdrop⟩ := get_leBytes h hrest hvalue
  unfold readU32
  rw [hget]
  exact ⟨rfl, hdrop⟩

theorem fromUTF8_nameBytes (s : String) : String.fromUTF8? ⟨(nameBytes s).toArray⟩ = some s := by
  have hraw : (⟨(nameBytes s).toArray⟩ : ByteArray) = s.toByteArray := rfl
  rw [hraw, String.fromUTF8?, dif_pos s.isValidUTF8]
  rfl

/-- **A record is read back as it was appended.** -/
theorem readItem_bytes {archive rest : List UInt8} {offset : Nat} {r : Record}
    (h : archive.drop offset = r.bytes ++ rest) (hrest : rest ≠ []) (hr : r.Sized) :
    archive[offset]? = some r.kindByte ∧
      readItem archive r.kindByte (offset + 1) = .ok (r.item, offset + r.bytes.length) ∧
      archive.drop (offset + r.bytes.length) = rest := by
  have hkind : archive[offset]? = some r.kindByte := by
    have hhead := congrArg (·[0]?) h
    simpa [Record.bytes] using hhead
  have hfields : archive.drop (offset + 1) = leBytes 2 (nameBytes (relativePath r.path)).length ++
      (leBytes 4 r.data.length ++ (nameBytes (relativePath r.path) ++ (r.data ++ rest))) := by
    rw [← List.drop_drop, h]
    simp [Record.bytes]
  obtain ⟨hpathLen, h⟩ := readU16_append hfields (by simp [leBytes]) hr.path
  obtain ⟨hdataLen, h⟩ := readU32_append h (by simp [hrest]) hr.data
  obtain ⟨hpath, h⟩ := get_append h (by simp [hrest])
  obtain ⟨hdata, h⟩ := get_append h hrest
  have hlength : offset + r.bytes.length = offset + 1 + 2 + 4 +
      (nameBytes (relativePath r.path)).length + r.data.length := by
    simp only [Record.bytes, List.length_append, length_leBytes, List.length_singleton]
    omega
  refine ⟨hkind, ?_, hlength ▸ h⟩
  unfold readItem
  rw [hpathLen]
  show (readU32 archive (offset + 1 + 2) >>= _) = _
  rw [hdataLen]
  show (get archive (offset + 1 + 2 + 4) _ >>= _) = _
  rw [hpath]
  dsimp only [bind, Except.bind]
  rw [fromUTF8_nameBytes, hlength]
  dsimp only
  rw [← joinPath_eq_relativePath]
  cases r with
  | file path data =>
    show (get archive _ _ >>= _) = _
    rw [hdata]
    rfl
  | directory path => rfl

/-! ## Placing one record -/

def Record.node : Record → Node
  | file _ data => .file data
  | directory _ => .directory

/-- The record is laid out in the tree, and nothing else has changed. -/
structure Lays (m : PathMap) (r : Record) (m' : PathMap) : Prop where
  here : ∃ i, m'.entry r.path = some ⟨i, r.node⟩
  other : ∀ q, q ≠ r.path → m'.entry q = m.entry q
  next : m'.next = m.next + if (m.entry r.path).isNone then 1 else 0

section Place

variable {fs : RamFs} {m : PathMap} {r : Record}

/-- The contents of a file that is empty. -/
theorem write_lays {cs : List String} {data : List UInt8} {i : Nat} (h : RamFs.Represents fs m)
    (hcs : canonicalPath (joinPath cs) = .ok cs) (hentry : m.entry cs = some ⟨i, .file []⟩)
    (hdata : data.length < wordSize) :
    ∃ fs', andThen ((Vfs.new fs).write (joinPath cs) 0 data) (fun vfs => (.ok (), vfs)) =
        ((.ok (), Vfs.new fs') : Except VfsError Unit × Vfs RamFs) ∧
      RamFs.Represents fs' (m.set cs (some ⟨i, .file data⟩)) := by
  obtain ⟨fs', hcall, h'⟩ := h.after (PathMap.call_write hcs hentry hdata)
  exact ⟨fs', andThen_of_map hcall _, h'⟩

/-- The entry of a record that was free. -/
theorem Lays.created {m' : PathMap} (hfree : m.entry r.path = none)
    (hentry : m'.entry = Function.update m.entry r.path (some ⟨m.next, r.node⟩))
    (hnext : m'.next = m.next + 1) : Lays m r m' where
  here := ⟨m.next, by rw [hentry, Function.update_self]⟩
  other q hq := by rw [hentry, Function.update_of_ne hq]
  next := by rw [hnext, hfree]; rfl

/-- The entry of a record that was there. -/
theorem Lays.replaced {m' : PathMap} {i : Nat} (hsome : m.entry r.path ≠ none)
    (hentry : m'.entry = Function.update m.entry r.path (some ⟨i, r.node⟩))
    (hnext : m'.next = m.next) : Lays m r m' where
  here := ⟨i, by rw [hentry, Function.update_self]⟩
  other q hq := by rw [hentry, Function.update_of_ne hq]
  next := by
    obtain ⟨e, he⟩ := Option.ne_none_iff_exists'.mp hsome
    rw [hnext, he]
    rfl

/-- **One record.** -/
theorem place_lays (h : RamFs.Represents fs m) (hcs : canonicalPath (joinPath r.path) = .ok r.path)
    (hparent : ∃ i, m.entry r.path.dropLast = some ⟨i, .directory⟩)
    (hkind : ∀ e, m.entry r.path = some e → e.metadata.kind = r.kind)
    (hroom : m.entry r.path = none → m.next + 1 < wordSize) (hdata : r.data.length < wordSize) :
    ∃ fs' m', r.item.place (Vfs.new fs) = (.ok (), Vfs.new fs') ∧ RamFs.Represents fs' m' ∧
      Lays m r m' := by
  obtain ⟨parent, hparent⟩ := hparent
  have hne : m.entry r.path = none → r.path ≠ [] := by
    intro hfree hnil
    rw [hnil] at hfree hparent
    rw [show ([] : List String).dropLast = [] from rfl, hfree] at hparent
    cases hparent
  cases r with
  | file cs data =>
    change canonicalPath (joinPath cs) = .ok cs at hcs
    change m.entry cs = none → cs ≠ [] at hne
    show ∃ fs' m', (Item.file (joinPath cs) data).place (Vfs.new fs) = _ ∧ _
    unfold Item.place
    dsimp only
    cases hentry : m.entry cs with
    | none =>
      have hcreate := PathMap.createAt_free (.file []) (hne hentry) hentry hparent (hroom hentry)
      obtain ⟨fs₁, hcall, h₁⟩ := h.after (PathMap.call_createFile hcs hcreate)
      obtain ⟨fs₂, hwrite, h₂⟩ := write_lays h₁ hcs (Function.update_self _ _ _) hdata
      refine ⟨fs₂, _, ?_, h₂, Lays.created hentry ?_ rfl⟩
      · rw [metadata_of_free h hcs (hne hentry) hentry hparent]
        exact (andThen_of_map hcall _).trans hwrite
      · exact Function.update_idem _ _ _
    | some e =>
      obtain ⟨i, node⟩ := e
      cases node with
      | directory => exact nomatch hkind _ hentry
      | file bytes =>
        obtain ⟨fs₁, hcall, h₁⟩ := h.after (PathMap.call_truncate hcs hentry)
        obtain ⟨fs₂, hwrite, h₂⟩ := write_lays h₁ hcs (Function.update_self _ _ _) hdata
        refine ⟨fs₂, _, ?_, h₂, Lays.replaced (r := .file cs data) (i := i) ?_ ?_ rfl⟩
        · rw [metadata_of_entry h hcs hentry]
          exact (andThen_of_map hcall _).trans hwrite
        · exact fun hfree => nomatch hentry.symm.trans hfree
        · exact Function.update_idem _ _ _
  | directory cs =>
    change canonicalPath (joinPath cs) = .ok cs at hcs
    change m.entry cs = none → cs ≠ [] at hne
    show ∃ fs' m', (Item.directory (joinPath cs)).place (Vfs.new fs) = _ ∧ _
    unfold Item.place
    dsimp only
    cases hentry : m.entry cs with
    | none =>
      have hcreate := PathMap.createAt_free .directory (hne hentry) hentry hparent (hroom hentry)
      obtain ⟨fs₁, hcall, h₁⟩ := h.after (PathMap.call_createDir hcs hcreate)
      refine ⟨fs₁, _, ?_, h₁, Lays.created hentry rfl rfl⟩
      rw [metadata_of_free h hcs (hne hentry) hentry hparent]
      exact andThen_of_map hcall _
    | some e =>
      obtain ⟨i, node⟩ := e
      cases node with
      | file bytes => exact nomatch hkind _ hentry
      | directory =>
        refine ⟨fs, m, ?_, h, Lays.replaced (r := .directory cs) (i := i) ?_ ?_ rfl⟩
        · rw [metadata_of_entry h hcs hentry]
          rfl
        · exact fun hfree => nomatch hentry.symm.trans hfree
        · exact (Function.update_eq_self_iff.mpr hentry.symm).symm

end Place

/-! ## All the records -/

/-- Records that fit a tree: their paths are canonical, the parent of each is a directory by then,
and no path is both a file and a directory. -/
structure Accepts (m : PathMap) (records : List Record) : Prop where
  canonical : ∀ r ∈ records, canonicalPath (joinPath r.path) = .ok r.path
  parent : ∀ before r after, records = before ++ r :: after →
    (∃ i, m.entry r.path.dropLast = some ⟨i, .directory⟩) ∨
      Record.directory r.path.dropLast ∈ before
  kinds : ∀ r ∈ records, ∀ r' ∈ records, r.path = r'.path → r.kind = r'.kind
  existing : ∀ r ∈ records, ∀ e, m.entry r.path = some e → e.metadata.kind = r.kind

/-- The paths that need an inode number. -/
def freePaths (m : PathMap) (records : List Record) : Finset (List String) :=
  (records.map Record.path).toFinset.filter fun path => (m.entry path).isNone

section Tail

variable {m m' : PathMap} {r : Record} {records : List Record}

theorem metadata_kind_node (i : Nat) (r : Record) : (Entry.metadata ⟨i, r.node⟩).kind = r.kind := by
  cases r <;> rfl

theorem Accepts.tail (h : Accepts m (r :: records)) (hr : Lays m r m') : Accepts m' records := by
  obtain ⟨i, hhere⟩ := hr.here
  refine ⟨fun r' hr' => h.canonical r' (List.mem_cons_of_mem _ hr'), fun before r' after heq => ?_,
    fun r' hr' r'' hr'' => h.kinds r' (List.mem_cons_of_mem _ hr') r'' (List.mem_cons_of_mem _ hr''),
    fun r' hr' e he => ?_⟩
  · -- the directory was there, or the record just laid out is it, or it comes later
    by_cases hpath : r'.path.dropLast = r.path
    · cases r with
      | directory path => exact .inl ⟨i, by rw [hpath, hhere]; rfl⟩
      | file path data =>
        rcases h.parent (.file path data :: before) r' after (by rw [heq]; rfl) with
          ⟨j, hj⟩ | hmem
        · rw [hpath] at hj
          exact nomatch h.existing _ List.mem_cons_self _ hj
        · rcases List.mem_cons.mp hmem with heq' | hmem
          · cases heq'
          · exact .inr hmem
    · rcases h.parent (r :: before) r' after (by rw [heq]; rfl) with ⟨j, hj⟩ | hmem
      · exact .inl ⟨j, by rw [hr.other _ hpath, hj]⟩
      · rcases List.mem_cons.mp hmem with heq' | hmem
        · rw [← heq'] at hpath
          exact absurd rfl hpath
        · exact .inr hmem
  · by_cases hpath : r'.path = r.path
    · rw [hpath, hhere] at he
      rw [← Option.some.inj he, metadata_kind_node]
      exact h.kinds r List.mem_cons_self r' (List.mem_cons_of_mem _ hr') hpath.symm
    · rw [hr.other _ hpath] at he
      exact h.existing r' (List.mem_cons_of_mem _ hr') e he

/-- A record takes a number if its path was free, and then it is free no more. -/
theorem Lays.numbers (hr : Lays m r m') :
    m'.next + (freePaths m' records).card ≤ m.next + (freePaths m (r :: records)).card := by
  obtain ⟨i, hhere⟩ := hr.here
  have hsub : freePaths m' records ⊆ (freePaths m (r :: records)).erase r.path := by
    intro path hpath
    obtain ⟨hmem, hfree⟩ := Finset.mem_filter.mp hpath
    have hne : path ≠ r.path := by
      rintro rfl
      rw [hhere] at hfree
      cases hfree
    rw [hr.other _ hne] at hfree
    refine Finset.mem_erase.mpr ⟨hne, Finset.mem_filter.mpr ⟨?_, hfree⟩⟩
    rw [List.map_cons, List.toFinset_cons]
    exact Finset.mem_insert_of_mem hmem
  have hcard := Finset.card_le_card hsub
  rw [hr.next]
  split
  · rename_i hfree
    have hmem : r.path ∈ freePaths m (r :: records) := Finset.mem_filter.mpr ⟨by simp, hfree⟩
    rw [Finset.card_erase_of_mem hmem] at hcard
    have := Finset.card_pos.mpr ⟨_, hmem⟩
    omega
  · have := Finset.card_le_card (Finset.erase_subset r.path (freePaths m (r :: records)))
    omega

/-- The tree behind all records: what the last record of each path says, and what was there before
elsewhere. -/
structure Unpacks (m : PathMap) (records : List Record) (m' : PathMap) : Prop where
  last : ∀ before r after, records = before ++ r :: after → (∀ r' ∈ after, r'.path ≠ r.path) →
    ∃ i, m'.entry r.path = some ⟨i, r.node⟩
  other : ∀ q, (∀ r ∈ records, r.path ≠ q) → m'.entry q = m.entry q

theorem Unpacks.nil (m : PathMap) : Unpacks m [] m :=
  ⟨fun before r after heq => absurd heq (by simp), fun _ _ => rfl⟩

theorem Unpacks.cons {m'' : PathMap} (hr : Lays m r m') (h : Unpacks m' records m'') :
    Unpacks m (r :: records) m'' := by
  refine ⟨fun before r' after heq hlast => ?_, fun q hq => ?_⟩
  · cases before with
    | nil =>
      obtain ⟨rfl, rfl⟩ := List.cons.inj heq
      obtain ⟨i, hhere⟩ := hr.here
      exact ⟨i, by rw [h.other _ hlast, hhere]⟩
    | cons first before => exact h.last before r' after (List.cons.inj heq).2 hlast
  · rw [h.other q fun r' hr' => hq r' (List.mem_cons_of_mem _ hr'),
      hr.other q (hq r List.mem_cons_self).symm]

end Tail

/-- **The loop**, from any record on. -/
theorem unpackFrom_lays {archive : List UInt8} {records : List Record} :
    ∀ {offset files : Nat} {fs : RamFs} {m : PathMap},
    archive.drop offset = records.flatMap Record.bytes ++ [0] → (∀ r ∈ records, r.Sized) →
    RamFs.Represents fs m → Accepts m records → m.next + (freePaths m records).card < wordSize →
    ∃ fs' m', unpackFrom archive offset files (Vfs.new fs) =
        (.ok (files + (records.filter fun r => r.kind = .file).length), Vfs.new fs') ∧
      RamFs.Represents fs' m' ∧ Unpacks m records m' := by
  induction records with
  | nil =>
    intro offset files fs m hdrop _ hfs _ _
    have hzero : archive[offset]? = some 0 := by
      have hhead := congrArg (·[0]?) hdrop
      simpa using hhead
    exact ⟨fs, m, unpackFrom_stop hzero _ _, hfs, .nil m⟩
  | cons r records ih =>
    intro offset files fs m hdrop hsized hfs haccepts hroom
    have hr := hsized r List.mem_cons_self
    rw [List.flatMap_cons, List.append_assoc] at hdrop
    obtain ⟨hkind, hitem, hrest⟩ := readItem_bytes hdrop (by simp) hr
    have hparent : ∃ i, m.entry r.path.dropLast = some ⟨i, .directory⟩ :=
      (haccepts.parent [] r records rfl).resolve_right (nomatch ·)
    have hfree : m.entry r.path = none → m.next + 1 < wordSize := by
      intro hnone
      have hmem : r.path ∈ freePaths m (r :: records) :=
        Finset.mem_filter.mpr ⟨by simp, by rw [hnone]; rfl⟩
      have := Finset.card_pos.mpr ⟨_, hmem⟩
      omega
    have hdata : r.data.length < wordSize :=
      hr.data.trans_le (by rw [wordSize]; decide)
    obtain ⟨fs₁, m₁, hplace, hfs₁, hlays⟩ := place_lays hfs (haccepts.canonical r List.mem_cons_self)
      hparent (haccepts.existing r List.mem_cons_self) hfree hdata
    obtain ⟨fs₂, m₂, hrun, hfs₂, hunpacks⟩ := @ih _ (files + r.item.files) _ _ hrest
      (fun r' hr' => hsized r' (List.mem_cons_of_mem _ hr')) hfs₁ (haccepts.tail hlays)
      (hlays.numbers.trans_lt hroom)
    refine ⟨fs₂, m₂, ?_, hfs₂, .cons hlays hunpacks⟩
    rw [unpackFrom_item hkind r.kindByte_ne_zero hitem, hplace]
    show unpackFrom archive _ _ _ = _
    rw [hrun]
    cases r with
    | file path data => simp [Record.item, Item.files, Record.kind]; omega
    | directory path => simp [Record.item, Item.files, Record.kind]

/-! ## Every archive -/

/-- Records that can be unpacked into a `Vfs`. -/
structure Unpackable (v : Vfs RamFs) (records : List Record) : Prop where
  canonical : ∀ r ∈ records, Canonical r.path ∧ (nameBytes (joinPath r.path)).length ≤ PATH_MAX
  parent : ∀ before r after, records = before ++ r :: after →
    (∃ m, v.metadata (joinPath r.path.dropLast) = .ok m ∧ m.kind = .directory) ∨
      Record.directory r.path.dropLast ∈ before
  kinds : ∀ r ∈ records, ∀ r' ∈ records, r.path = r'.path → r.kind = r'.kind
  existing : ∀ r ∈ records, ∀ m, v.metadata (joinPath r.path) = .ok m → m.kind = r.kind

/-- The paths that are not there yet. -/
def newPaths (v : Vfs RamFs) (records : List Record) : Finset (List String) :=
  (records.map Record.path).toFinset.filter fun path => (v.metadata (joinPath path)).toOption.isNone

section Theorem

variable {fs : RamFs} {m : PathMap} {records : List Record}

theorem canonicalPath_of_canonical {cs : List String} (h : Canonical cs)
    (hsize : (nameBytes (joinPath cs)).length ≤ PATH_MAX) : canonicalPath (joinPath cs) = .ok cs :=
  canonicalPath_eq_ok.mpr ⟨pathComponents_joinPath h validBase_slash, hsize⟩

/-- A directory, by its metadata. -/
theorem entry_of_directory {e : Entry} (h : e.metadata.kind = .directory) :
    e = ⟨e.inode, .directory⟩ := by
  obtain ⟨i, node⟩ := e
  cases node with
  | directory => rfl
  | file bytes => cases h

/-- The parent of a short path is short. -/
theorem canonicalPath_dropLast {cs : List String} (hcs : canonicalPath (joinPath cs) = .ok cs) :
    canonicalPath (joinPath cs.dropLast) = .ok cs.dropLast := by
  have hcanonical := canonicalPath_canonical hcs
  refine canonicalPath_of_canonical hcanonical.dropLast (le_trans ?_ (canonicalPath_eq_ok.mp hcs).2)
  rcases List.eq_nil_or_concat cs with rfl | ⟨front, n, rfl⟩
  · exact le_refl _
  · rw [List.concat_eq_append] at hcanonical ⊢
    rw [List.dropLast_concat]
    exact le_of_lt (pathSize_lt hcanonical (List.cons_ne_nil n []))

theorem Unpackable.accepts (h : Unpackable (Vfs.new fs) records) (hfs : RamFs.Represents fs m) :
    Accepts m records := by
  have hcs : ∀ r ∈ records, canonicalPath (joinPath r.path) = .ok r.path := fun r hr =>
    canonicalPath_of_canonical (h.canonical r hr).1 (h.canonical r hr).2
  refine ⟨hcs, fun before r after heq => ?_, h.kinds, fun r hr e he => ?_⟩
  · rcases h.parent before r after heq with ⟨x, hx, hdir⟩ | hmem
    · have hparent := metadata_toOption hfs
        (canonicalPath_dropLast (hcs r (by rw [heq]; simp)))
      rw [hx] at hparent
      obtain ⟨e, he, rfl⟩ := Option.map_eq_some_iff.mp hparent.symm
      exact .inl ⟨e.inode, by rw [he, ← entry_of_directory hdir]⟩
    · exact .inr hmem
  · exact h.existing r hr _ (metadata_of_entry hfs (hcs r hr) he)

theorem freePaths_eq (h : Unpackable (Vfs.new fs) records) (hfs : RamFs.Represents fs m) :
    freePaths m records = newPaths (Vfs.new fs) records := by
  refine Finset.filter_congr fun path hpath => ?_
  obtain ⟨r, hr, rfl⟩ := List.mem_map.mp (List.mem_toFinset.mp hpath)
  rw [metadata_toOption hfs (canonicalPath_of_canonical (h.canonical r hr).1 (h.canonical r hr).2)]
  cases m.entry r.path <;> rfl

/-- A path that has a record has a last one. -/
theorem exists_last {path : List String} (h : ∃ r ∈ records, r.path = path) : ∃ before r after,
    records = before ++ r :: after ∧ r.path = path ∧ ∀ r' ∈ after, r'.path ≠ path := by
  induction records with
  | nil => exact absurd h (by simp)
  | cons first records ih =>
    by_cases hlater : ∃ r ∈ records, r.path = path
    · obtain ⟨before, r, after, rfl, hr, hlast⟩ := ih hlater
      exact ⟨first :: before, r, after, rfl, hr, hlast⟩
    · obtain ⟨r, hr, hpath⟩ := h
      rcases List.mem_cons.mp hr with rfl | hr
      · exact ⟨[], r, records, rfl, hpath, fun r' hr' heq => hlater ⟨r', hr', heq⟩⟩
      · exact absurd ⟨r, hr, hpath⟩ hlater

end Theorem

/-- **Unpacking inverts packing.** Into a `Vfs` over a memory filesystem that any calls have been
made on, with inode numbers left for the new paths: `unpack` returns the number of files; each file
reads as its last record, each directory is one, and other paths show what they did. -/
theorem unpack_buildArchive (calls : List Call) {records : List Record} {archive : List UInt8}
    (h : Unpackable (afterCalls calls) records) (harchive : buildArchive records = some archive)
    (hnumbers : (afterCalls calls).root.nextInode + (newPaths (afterCalls calls) records).card <
      wordSize) :
    (unpack archive (afterCalls calls)).1 = .ok (records.filter fun r => r.kind = .file).length ∧
    (∀ before path data after, records = before ++ .file path data :: after →
      (∀ r ∈ after, r.path ≠ path) →
      (unpack archive (afterCalls calls)).2.readAll (joinPath path) = .ok data) ∧
    (∀ path, Record.directory path ∈ records →
      ∃ m, (unpack archive (afterCalls calls)).2.metadata (joinPath path) = .ok m ∧
        m.kind = .directory) ∧
    ∀ text, (∀ r ∈ records, canonicalPath text ≠ .ok r.path) →
      ((unpack archive (afterCalls calls)).2.metadata text).toOption =
        ((afterCalls calls).metadata text).toOption ∧
      ((unpack archive (afterCalls calls)).2.readAll text).toOption =
        ((afterCalls calls).readAll text).toOption := by
  obtain ⟨-, fs, hstate, hfs⟩ := RamFs.new_represents.serve calls
  generalize (serve PathMap.call PathMap.init calls).2 = m at hfs
  have hv : afterCalls calls = Vfs.new fs := hstate
  rw [hv] at h hnumbers ⊢
  obtain ⟨body, hbody, rfl⟩ := Option.map_eq_some_iff.mp harchive
  obtain ⟨rfl, hsized⟩ := appendRecords_eq hbody
  have haccepts := h.accepts hfs
  have hroom : m.next + (freePaths m records).card < wordSize := by
    rw [freePaths_eq h hfs, hfs.next]
    exact hnumbers
  have hdrop : (magic ++ records.flatMap Record.bytes ++ [0]).drop 4 =
      records.flatMap Record.bytes ++ [0] := by
    rw [List.append_assoc]
    rfl
  obtain ⟨fs', m', hrun, hfs', hunpacks⟩ := @unpackFrom_lays _ _ 4 0 _ _ hdrop hsized hfs haccepts hroom
  have hunpack : unpack (magic ++ records.flatMap Record.bytes ++ [0]) (Vfs.new fs) =
      (.ok (records.filter fun r => r.kind = .file).length, Vfs.new fs') := by
    unfold unpack
    rw [if_neg, hrun, Nat.zero_add]
    rw [not_or, not_not, List.append_assoc]
    exact ⟨by simp [magic], rfl⟩
  rw [hunpack]
  refine ⟨rfl, fun before path data after heq hlast => ?_, fun path hpath => ?_, fun text htext => ?_⟩
  · obtain ⟨i, hentry⟩ := hunpacks.last before _ after heq hlast
    have hcs : canonicalPath (joinPath path) = .ok path :=
      haccepts.canonical (.file path data) (by rw [heq]; simp)
    show (Vfs.new fs').readAll (joinPath path) = _
    rw [hfs'.readAll_eq hcs]
    unfold PathMap.readAllAt PathMap.findFile PathMap.find
    rw [show m'.entry path = some ⟨i, .file data⟩ from hentry]
    rfl
  · obtain ⟨before, r, after, heq, hr, hlast⟩ := exists_last ⟨_, hpath, rfl⟩
    obtain ⟨i, hentry⟩ := hunpacks.last before r after heq fun r' hr' => hr ▸ hlast r' hr'
    have hmem : r ∈ records := by rw [heq]; simp
    have hkind := haccepts.kinds r hmem _ hpath hr
    rw [hr] at hentry
    refine ⟨_, metadata_of_entry hfs' (haccepts.canonical _ hpath) hentry, ?_⟩
    rw [metadata_kind_node, hkind]
    rfl
  · exact hfs.look_of_entry hfs' fun cs hcs => hunpacks.other cs fun r hr heq =>
      htext r hr (by rw [heq, hcs])

/-- A directory and a program in it. -/
theorem unpack_buildArchive_init : ∃ archive,
    buildArchive [.directory ["bin"], .file ["bin", "init"] [7]] = some archive ∧
    (unpack archive (afterCalls [])).1 = .ok 1 ∧
    (unpack archive (afterCalls [])).2.readAll (joinPath ["bin", "init"]) = .ok [7] := by
  have hunpackable : Unpackable (afterCalls []) [.directory ["bin"], .file ["bin", "init"] [7]] := by
    refine ⟨by decide +kernel, fun before r after heq => ?_, by decide +kernel, fun r hr m hm => ?_⟩
    · match before with
      | [] =>
        obtain ⟨rfl, -⟩ := List.cons.inj heq
        exact .inl ⟨⟨1, .directory, 0⟩, by decide +kernel, rfl⟩
      | [first] =>
        obtain ⟨hfirst, heq⟩ := List.cons.inj heq
        obtain ⟨rfl, -⟩ := List.cons.inj heq
        exact .inr (List.mem_singleton.mpr hfirst)
      | first :: second :: rest => simp at heq
    · have hnone : ∀ r ∈ [Record.directory ["bin"], .file ["bin", "init"] [7]],
          ((afterCalls []).metadata (joinPath r.path)).toOption = none := by decide +kernel
      have := hnone r hr
      rw [hm] at this
      cases this
  obtain ⟨archive, harchive⟩ : ∃ archive,
      buildArchive [.directory ["bin"], .file ["bin", "init"] [7]] = some archive :=
    Option.isSome_iff_exists.mp (by decide +kernel)
  have hall := unpack_buildArchive [] hunpackable harchive (by decide +kernel)
  exact ⟨archive, harchive, hall.1, hall.2.1 [.directory ["bin"]] _ _ [] rfl (by simp)⟩

/-- After 2^64 - 3 files made and removed there is no number for another one. -/
theorem unpack_exhausted : ∃ calls archive, Unpackable (afterCalls calls) [.file ["f"] []] ∧
    buildArchive [.file ["f"] []] = some archive ∧
    (unpack archive (afterCalls calls)).1 = .error .inodeExhausted := by
  obtain ⟨n, hn⟩ : ∃ n, n + 3 = wordSize := ⟨wordSize - 3, by
    have : 3 ≤ wordSize := by rw [wordSize]; decide
    omega⟩
  have hnew : RamFs.Represents RamFs.new (emptyMap 2) := RamFs.new_represents
  obtain ⟨-, fs, hv, hfs⟩ := @rounds_spec (fun _ _ => True) (fun _ _ => trivial) (fun _ => trivial) n
    _ _ hnew (by omega)
  have hstate : afterCalls (rounds n) = Vfs.new fs := hv
  have hcs : canonicalPath (joinPath ["f"]) = .ok ["f"] := by decide +kernel
  have hfree : (Vfs.new fs).metadata (joinPath ["f"]) = .error .notFound :=
    metadata_of_free hfs hcs (by simp) rfl rfl
  obtain ⟨archive, harchive⟩ : ∃ archive, buildArchive [.file ["f"] []] = some archive :=
    Option.isSome_iff_exists.mp (by decide +kernel)
  refine ⟨rounds n, archive, ?_, harchive, ?_⟩
  · rw [hstate]
    refine ⟨by decide +kernel, fun before r after heq => ?_, by decide +kernel, fun r hr m hm => ?_⟩
    · cases before with
      | nil =>
        obtain ⟨rfl, -⟩ := List.cons.inj heq
        exact .inl ⟨⟨1, .directory, 0⟩, @metadata_of_entry _ _ [] _ hfs (by decide +kernel) rfl, rfl⟩
      | cons first before => simp at heq
    · obtain rfl := List.mem_singleton.mp hr
      rw [show (Vfs.new fs).metadata (joinPath (Record.file ["f"] []).path) = _ from hfree] at hm
      cases hm
  · obtain ⟨body, hbody, rfl⟩ := Option.map_eq_some_iff.mp harchive
    obtain ⟨rfl, hsized⟩ := appendRecords_eq hbody
    obtain ⟨hkind, hitem, -⟩ := @readItem_bytes (magic ++ [Record.file ["f"] []].flatMap Record.bytes ++ [0])
      [0] 4 (.file ["f"] []) (by simp [magic]) (by simp) (hsized _ (by simp))
    obtain ⟨fs', hcreate, -⟩ := hfs.after (emptyMap_exhausted (show wordSize ≤ 2 + n + 1 by omega))
    have hplace : (Record.file ["f"] []).item.place (Vfs.new fs) =
        (.error .inodeExhausted, Vfs.new fs') := by
      show (Item.file (joinPath ["f"]) []).place (Vfs.new fs) = _
      unfold Item.place
      dsimp only
      rw [hfree]
      exact andThen_of_map_error hcreate _
    rw [hstate]
    unfold unpack
    rw [if_neg (by decide +kernel), unpackFrom_item hkind (Record.kindByte_ne_zero _) hitem, hplace]
    rfl

end GenericKernel.Initramfs
