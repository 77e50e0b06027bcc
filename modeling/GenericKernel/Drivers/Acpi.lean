import GenericKernel.Lib.Bytes
import GenericKernel.Lib.Fallible

/-!
# The MADT parser (`kernel/src/arch/acpi.rs`)

`parse_madt` walks over the entries of the firmware's interrupt controller table.
The fields of an entry are loaded through raw pointers: a load that leaves its
entry is a panic here, as is a walk that does not end.

* **model** — `parseEntry`, `parseEntries`, `parseMadt`;
* **format** — `Cuts` says which bytes are a list of entries, `madtInfo` what the
  list describes: the first I/O APICs, the last override of each IRQ, the last
  local APIC address;
* **result** — `parseMadt_exact`.
-/

namespace GenericKernel.Acpi

open GenericKernel.Lib

/-! ## The model -/

def MADT_HEADER_SIZE : Nat := 44

def MAX_IO_APICS : Nat := 4

structure IoApicInfo where
  address : Nat
  gsiBase : Nat
  deriving DecidableEq, Repr

instance : Inhabited IoApicInfo := ⟨⟨0, 0⟩⟩

structure InterruptOverride where
  sourceIrq : UInt8
  gsi : Nat
  flags : Nat
  deriving DecidableEq, Repr

@[ext] structure ApicInfo where
  localApicAddress : Nat
  ioApics : Vector IoApicInfo MAX_IO_APICS
  ioApicCount : Nat
  overrides : Vector (Option InterruptOverride) 16
  deriving DecidableEq, Repr

open Fallible

/-- The body shared by `read_u16`, `read_u32` and `read_u64`: an unaligned load. -/
def readLe (width : Nat) (bytes : Slice UInt8) (offset : Nat) : Fallible String Nat :=
  if offset + width ≤ bytes.length then ok (field bytes.items offset width) else panic

def readU16 : Slice UInt8 → Nat → Fallible String Nat := readLe 2

def readU32 : Slice UInt8 → Nat → Fallible String Nat := readLe 4

def readU64 : Slice UInt8 → Nat → Fallible String Nat := readLe 8

/-- `array[i] = value` -/
def setAt {α : Type} {n : Nat} (array : Vector α n) (i : Nat) (value : α) :
    Fallible String (Vector α n) :=
  if h : i < n then ok (array.set i value h) else panic

/-- The `match` on the type of one entry. -/
def parseEntry (result : ApicInfo) (entryType : UInt8) (length : Nat) (entry : Slice UInt8) :
    Fallible String ApicInfo :=
  if entryType = 1 ∧ 12 ≤ length then
    if result.ioApicCount < MAX_IO_APICS then do
      let address ← readU32 entry 4
      let gsiBase ← readU32 entry 8
      let ioApics ← setAt result.ioApics result.ioApicCount { address, gsiBase }
      let ioApicCount ← add result.ioApicCount 1
      ok { result with ioApics, ioApicCount }
    else ok result
  else if entryType = 2 ∧ 10 ≤ length then do
    let bus ← entry.index 2
    let sourceIrq ← entry.index 3
    if bus = 0 ∧ sourceIrq.toNat < 16 then
      let gsi ← readU32 entry 4
      let flags ← readU16 entry 8
      let overrides ← setAt result.overrides sourceIrq.toNat (some { sourceIrq, gsi, flags })
      ok { result with overrides }
    else ok result
  else if entryType = 5 ∧ 12 ≤ length then do
    let localApicAddress ← readU64 entry 4
    ok { result with localApicAddress }
  else ok result

/-- The loop over the entries from `offset` on. A round consumes at least two bytes. -/
def parseEntries (table : Slice UInt8) : Nat → Nat → ApicInfo → Fallible String ApicInfo
  | 0, _, _ => panic
  | rounds + 1, offset, result =>
      if offset < table.length then do
        let head ← add offset 2
        reject (table.length < head) "truncated ACPI MADT entry"
        let entryType ← table.index offset
        let length ← table.index (← add offset 1)
        reject (length < 2) "invalid ACPI MADT entry length"
        let stop ← add offset length.toNat
        reject (table.length < stop) "invalid ACPI MADT entry length"
        let entry ← table.range offset stop
        let result ← parseEntry result entryType length.toNat entry
        parseEntries table rounds stop result
      else ok result

def parseMadt (table : Slice UInt8) : Fallible String ApicInfo := do
  reject (table.length < MADT_HEADER_SIZE) "ACPI MADT is truncated"
  let localApicAddress ← readU32 table 36
  let result ← parseEntries table (table.length + 1) MADT_HEADER_SIZE
    { localApicAddress
      ioApics := Vector.replicate MAX_IO_APICS default
      ioApicCount := 0
      overrides := Vector.replicate 16 none }
  reject (result.localApicAddress = 0) "ACPI MADT has no local APIC address"
  reject (result.ioApicCount = 0) "ACPI MADT has no IOAPIC"
  ok result

/-! ## The format -/

/-- An entry states its own length in its second byte. -/
def IsEntry (entry : List UInt8) : Prop :=
  2 ≤ entry.length ∧ entry[1]?.map UInt8.toNat = some entry.length

/-- The bytes are the given entries, one behind the other. -/
structure Cuts (bytes : List UInt8) (entries : List (List UInt8)) : Prop where
  entry : ∀ entry ∈ entries, IsEntry entry
  flatten : entries.flatten = bytes

/-- An entry of the given type with all its fields. -/
def HasType (type : UInt8) (size : Nat) (entry : List UInt8) : Prop :=
  entry[0]? = some type ∧ size ≤ entry.length

instance (type : UInt8) (size : Nat) : DecidablePred (HasType type size) :=
  fun _ => inferInstanceAs (Decidable (_ ∧ _))

def IsIoApic : List UInt8 → Prop := HasType 1 12

def IsLocalAddress : List UInt8 → Prop := HasType 5 12

/-- An override of an IRQ of the ISA bus. -/
def IsOverride (irq : Nat) (entry : List UInt8) : Prop :=
  HasType 2 10 entry ∧ entry[2]? = some 0 ∧ entry[3]?.map UInt8.toNat = some irq

instance : DecidablePred IsIoApic := inferInstanceAs (DecidablePred (HasType 1 12))

instance : DecidablePred IsLocalAddress := inferInstanceAs (DecidablePred (HasType 5 12))

instance (irq : Nat) : DecidablePred (IsOverride irq) :=
  fun _ => inferInstanceAs (Decidable (_ ∧ _))

def ioApicOf (entry : List UInt8) : IoApicInfo := ⟨field entry 4 4, field entry 8 4⟩

def overrideOf (irq : Nat) (entry : List UInt8) : InterruptOverride :=
  ⟨UInt8.ofNat irq, field entry 4 4, field entry 8 2⟩

/-- The first four I/O APICs. -/
def firstIoApics (entries : List (List UInt8)) : List IoApicInfo :=
  ((entries.filter fun entry => IsIoApic entry).take MAX_IO_APICS).map ioApicOf

/-- The last override of an IRQ. -/
def lastOverride (entries : List (List UInt8)) (irq : Nat) : Option InterruptOverride :=
  (entries.filter fun entry => IsOverride irq entry).getLast?.map (overrideOf irq)

/-- The last local APIC address, or the one of the header. -/
def lastLocalAddress (header : Nat) (entries : List (List UInt8)) : Nat :=
  ((entries.filter fun entry => IsLocalAddress entry).getLast?.map fun entry =>
    field entry 4 8).getD header

/-- What a table with the given address in its header and the given entries describes. -/
def madtInfo (header : Nat) (entries : List (List UInt8)) : ApicInfo where
  localApicAddress := lastLocalAddress header entries
  ioApics := Vector.ofFn fun i => (firstIoApics entries)[i.val]?.getD default
  ioApicCount := (firstIoApics entries).length
  overrides := Vector.ofFn fun irq => lastOverride entries irq.val

/-! ## One entry -/

/-- What one more entry changes. -/
def applyEntry (result : ApicInfo) (entry : List UInt8) : ApicInfo where
  localApicAddress := if IsLocalAddress entry then field entry 4 8 else result.localApicAddress
  ioApics := Vector.ofFn fun i =>
    if IsIoApic entry ∧ i.val = result.ioApicCount then ioApicOf entry
    else result.ioApics.get i
  ioApicCount :=
    if IsIoApic entry ∧ result.ioApicCount < MAX_IO_APICS then result.ioApicCount + 1
    else result.ioApicCount
  overrides := Vector.ofFn fun irq =>
    if IsOverride irq.val entry then some (overrideOf irq.val entry)
    else result.overrides.get irq

theorem readLe_ok {width offset : Nat} {bytes : Slice UInt8} (h : offset + width ≤ bytes.length) :
    readLe width bytes offset = ok (field bytes.items offset width) := if_pos h

theorem setAt_ok {α : Type} {n : Nat} {array : Vector α n} {i : Nat} (value : α) (h : i < n) :
    setAt array i value = ok (array.set i value h) := dif_pos h

section Entry

variable {entry : Slice UInt8} {entryType : UInt8}

theorem hasType_iff (htype : entry.items[0]? = some entryType) (type : UInt8) (size : Nat) :
    HasType type size entry.items ↔ entryType = type ∧ size ≤ entry.length := by
  rw [HasType, htype, Option.some_inj]
  rfl

/-- A table of which one kind of field at most has changed. -/
theorem eq_applyEntry {result info : ApicInfo} {entry : List UInt8}
    (hlocal : info.localApicAddress =
      if IsLocalAddress entry then field entry 4 8 else result.localApicAddress)
    (hio : ∀ (i : Nat) (hi : i < MAX_IO_APICS), info.ioApics[i] =
      if IsIoApic entry ∧ i = result.ioApicCount then ioApicOf entry else result.ioApics[i])
    (hcount : info.ioApicCount =
      if IsIoApic entry ∧ result.ioApicCount < MAX_IO_APICS then result.ioApicCount + 1
      else result.ioApicCount)
    (hoverride : ∀ (irq : Nat) (hi : irq < 16), info.overrides[irq] =
      if IsOverride irq entry then some (overrideOf irq entry) else result.overrides[irq]) :
    info = applyEntry result entry := by
  refine ApicInfo.ext hlocal (Vector.ext fun i hi => ?_) hcount (Vector.ext fun irq hi => ?_)
  · rw [hio i hi]
    simp [applyEntry, Vector.get_eq_getElem]
  · rw [hoverride irq hi]
    simp [applyEntry, Vector.get_eq_getElem]

/-- An entry that is not read changes nothing. -/
theorem applyEntry_of_other {result : ApicInfo} {entry : List UInt8}
    (hio : IsIoApic entry → MAX_IO_APICS ≤ result.ioApicCount)
    (hoverride : ∀ irq < 16, ¬ IsOverride irq entry) (hlocal : ¬ IsLocalAddress entry) :
    applyEntry result entry = result := by
  refine (eq_applyEntry ?_ (fun i hi => ?_) ?_ fun irq hi => ?_).symm
  · rw [if_neg hlocal]
  · rw [if_neg]
    rintro ⟨h, rfl⟩
    exact absurd hi (Nat.not_lt.mpr (hio h))
  · rw [if_neg fun h => absurd h.2 (Nat.not_lt.mpr (hio h.1))]
  · rw [if_neg (hoverride irq hi)]

variable (result : ApicInfo) (htype : entry.items[0]? = some entryType)

include htype

theorem parseEntry_ioApic (h : entryType = 1 ∧ 12 ≤ entry.length) :
    parseEntry result entryType entry.length entry = ok (applyEntry result entry.items) := by
  have hkind := hasType_iff htype
  have hioApic : IsIoApic entry.items := (hkind 1 12).mpr h
  have hoverride : ∀ irq, ¬ IsOverride irq entry.items := fun irq hentry =>
    absurd (h.1.symm.trans ((hkind 2 10).mp hentry.1).1) (by decide)
  have hlocal : ¬ IsLocalAddress entry.items := fun hentry =>
    absurd (h.1.symm.trans ((hkind 5 12).mp hentry).1) (by decide)
  unfold parseEntry
  rw [if_pos h]
  by_cases hroom : result.ioApicCount < MAX_IO_APICS
  · have hmax : MAX_IO_APICS < wordSize := lt_wordSize (by decide)
    rw [if_pos hroom, readU32, readLe_ok (by omega), ok_bind, readLe_ok (by omega), ok_bind,
      setAt_ok _ hroom, ok_bind, add_of_lt (by omega), ok_bind]
    refine congrArg ok (eq_applyEntry ?_ (fun i hi => ?_) ?_ fun irq hi => ?_)
    · rw [if_neg hlocal]
    · simp only [hioApic, true_and, Vector.getElem_set, eq_comm, ioApicOf]
    · rw [if_pos ⟨hioApic, hroom⟩]
    · rw [if_neg (hoverride irq)]
  · rw [if_neg hroom, applyEntry_of_other (fun _ => Nat.not_lt.mp hroom) (fun irq _ => hoverride irq)
      hlocal]

theorem parseEntry_override (h : entryType = 2 ∧ 10 ≤ entry.length) :
    parseEntry result entryType entry.length entry = ok (applyEntry result entry.items) := by
  have hkind := hasType_iff htype
  have hnotOne : ¬ (entryType = 1 ∧ 12 ≤ entry.length) := fun hone =>
    absurd (h.1.symm.trans hone.1) (by decide)
  have hioApic : ¬ IsIoApic entry.items := fun hentry => hnotOne ((hkind 1 12).mp hentry)
  have hlocal : ¬ IsLocalAddress entry.items := fun hentry =>
    absurd (h.1.symm.trans ((hkind 5 12).mp hentry).1) (by decide)
  obtain ⟨bus, hbus⟩ : ∃ bus, entry.items[2]? = some bus :=
    ⟨_, List.getElem?_eq_getElem (show 2 < entry.length by omega)⟩
  obtain ⟨sourceIrq, hirq⟩ : ∃ sourceIrq, entry.items[3]? = some sourceIrq :=
    ⟨_, List.getElem?_eq_getElem (show 3 < entry.length by omega)⟩
  have hoverride : ∀ irq, IsOverride irq entry.items ↔ bus = 0 ∧ sourceIrq.toNat = irq := by
    intro irq
    rw [IsOverride, hbus, hirq, Option.map_some, Option.some_inj, Option.some_inj]
    exact and_iff_right ((hkind 2 10).mpr h)
  unfold parseEntry
  rw [if_neg hnotOne, if_pos h, Slice.index_eq_ok hbus, ok_bind, Slice.index_eq_ok hirq, ok_bind]
  by_cases hisa : bus = 0 ∧ sourceIrq.toNat < 16
  · rw [if_pos hisa, readU32, readLe_ok (by omega), ok_bind, readU16, readLe_ok (by omega),
      ok_bind, setAt_ok _ hisa.2, ok_bind]
    refine congrArg ok (eq_applyEntry ?_ (fun i hi => ?_) ?_ fun irq hi => ?_)
    · rw [if_neg hlocal]
    · rw [if_neg fun hentry => hioApic hentry.1]
    · rw [if_neg fun hentry => hioApic hentry.1]
    · simp only [hoverride, hisa.1, true_and, Vector.getElem_set]
      by_cases heq : sourceIrq.toNat = irq
      · rw [if_pos heq, if_pos heq, overrideOf, ← heq, UInt8.ofNat_toNat]
      · rw [if_neg heq, if_neg heq]
  · rw [if_neg hisa, applyEntry_of_other (fun hentry => absurd hentry hioApic) ?_ hlocal]
    intro irq hi hentry
    obtain ⟨hzero, rfl⟩ := (hoverride irq).mp hentry
    exact hisa ⟨hzero, hi⟩

/-- Every field that is read lies inside the entry, whatever its length. -/
theorem parseEntry_eq :
    parseEntry result entryType entry.length entry = ok (applyEntry result entry.items) := by
  have hkind := hasType_iff htype
  by_cases hone : entryType = 1 ∧ 12 ≤ entry.length
  · exact parseEntry_ioApic result htype hone
  by_cases htwo : entryType = 2 ∧ 10 ≤ entry.length
  · exact parseEntry_override result htype htwo
  have hioApic : ¬ IsIoApic entry.items := fun hentry => hone ((hkind 1 12).mp hentry)
  have hoverride : ∀ irq, ¬ IsOverride irq entry.items := fun irq hentry =>
    htwo ((hkind 2 10).mp hentry.1)
  unfold parseEntry
  rw [if_neg hone, if_neg htwo]
  by_cases hfive : entryType = 5 ∧ 12 ≤ entry.length
  · have hlocal : IsLocalAddress entry.items := (hkind 5 12).mpr hfive
    rw [if_pos hfive, readU64, readLe_ok (by omega), ok_bind]
    refine congrArg ok (eq_applyEntry ?_ (fun i hi => ?_) ?_ fun irq hi => ?_)
    · rw [if_pos hlocal]
    · rw [if_neg fun hentry => hioApic hentry.1]
    · rw [if_neg fun hentry => hioApic hentry.1]
    · rw [if_neg (hoverride irq)]
  · have hlocal : ¬ IsLocalAddress entry.items := fun hentry => hfive ((hkind 5 12).mp hentry)
    rw [if_neg hfive, applyEntry_of_other (fun hentry => absurd hentry hioApic)
      (fun irq _ => hoverride irq) hlocal]

end Entry

/-! ## All entries -/

theorem firstIoApics_append (entries : List (List UInt8)) (entry : List UInt8) :
    firstIoApics (entries ++ [entry]) =
      if IsIoApic entry ∧ (firstIoApics entries).length < MAX_IO_APICS then
        firstIoApics entries ++ [ioApicOf entry]
      else firstIoApics entries := by
  have hlength : (firstIoApics entries).length =
      min MAX_IO_APICS (entries.filter fun entry => IsIoApic entry).length := by
    rw [firstIoApics, List.length_map, List.length_take]
  by_cases hio : IsIoApic entry
  · have hfilter : [entry].filter (fun entry => IsIoApic entry) = [entry] := by simp [hio]
    unfold firstIoApics at hlength ⊢
    rw [List.filter_append, hfilter, List.take_append, List.map_append]
    by_cases hroom : (entries.filter fun entry => IsIoApic entry).length < MAX_IO_APICS
    · rw [if_pos ⟨hio, by omega⟩, List.take_of_length_le (show [entry].length ≤ _ from by
        show 1 ≤ _
        omega)]
      rfl
    · rw [if_neg (fun h => by have := h.2; omega), Nat.sub_eq_zero_of_le (Nat.not_lt.mp hroom)]
      simp
  · have hfilter : [entry].filter (fun entry => IsIoApic entry) = [] := by simp [hio]
    rw [if_neg fun h => hio h.1, firstIoApics, List.filter_append, hfilter, List.append_nil]
    rfl

/-- The last entry of a kind, after one more entry. -/
theorem getLast?_filter_append {p : List UInt8 → Prop} [DecidablePred p]
    (entries : List (List UInt8)) (entry : List UInt8) :
    ((entries ++ [entry]).filter fun entry => p entry).getLast? =
      if p entry then some entry else (entries.filter fun entry => p entry).getLast? := by
  rw [List.filter_append]
  by_cases h : p entry
  · simp [h]
  · simp [h]

/-- What the entries describe, entry by entry. -/
theorem madtInfo_append (header : Nat) (entries : List (List UInt8)) (entry : List UInt8) :
    madtInfo header (entries ++ [entry]) = applyEntry (madtInfo header entries) entry := by
  refine eq_applyEntry ?_ (fun i hi => ?_) ?_ fun irq hi => ?_
  · show lastLocalAddress _ _ = if _ then _ else lastLocalAddress _ _
    rw [lastLocalAddress, getLast?_filter_append]
    by_cases h : IsLocalAddress entry
    · simp [h]
    · simp [h, lastLocalAddress]
  · simp only [madtInfo, Vector.getElem_ofFn, firstIoApics_append]
    by_cases hio : IsIoApic entry
    · by_cases hroom : (firstIoApics entries).length < MAX_IO_APICS
      · rw [if_pos ⟨hio, hroom⟩, List.getElem?_append]
        rcases Nat.lt_trichotomy i (firstIoApics entries).length with hlt | rfl | hgt
        · simp [hlt, hlt.ne]
        · simp [hio]
        · have hsub : i - (firstIoApics entries).length ≠ 0 := by omega
          simp [hgt.ne', Nat.not_lt.mpr hgt.le, hsub]
      · have hother : i ≠ (firstIoApics entries).length := by omega
        rw [if_neg fun h => hroom h.2, if_neg fun h => hother h.2]
    · rw [if_neg fun h => hio h.1, if_neg fun h => hio h.1]
  · simp only [madtInfo, firstIoApics_append]
    by_cases h : IsIoApic entry ∧ (firstIoApics entries).length < MAX_IO_APICS
    · simp [h]
    · simp [h]
  · simp only [madtInfo, Vector.getElem_ofFn, lastOverride, getLast?_filter_append]
    by_cases h : IsOverride irq entry
    · simp [h]
    · simp [h]

theorem madtInfo_nil (header : Nat) : madtInfo header [] =
    { localApicAddress := header
      ioApics := Vector.replicate MAX_IO_APICS default
      ioApicCount := 0
      overrides := Vector.replicate 16 none } := by
  refine ApicInfo.ext rfl (Vector.ext fun i hi => ?_) rfl (Vector.ext fun irq hi => ?_)
  · simp [madtInfo, firstIoApics]
  · simp [madtInfo, lastOverride]

theorem foldl_applyEntry (header : Nat) (entries : List (List UInt8)) :
    entries.foldl applyEntry (madtInfo header []) = madtInfo header entries := by
  induction entries using List.reverseRecOn with
  | nil => rfl
  | append_singleton entries entry ih =>
      rw [List.foldl_append, ih, madtInfo_append]
      rfl

namespace Cuts

variable {bytes : List UInt8} {entries rest : List (List UInt8)}

/-- The first entry of a list of entries is as long as the second byte says. -/
theorem head (h : Cuts bytes entries) (hne : bytes ≠ []) :
    ∃ n rest, bytes[1]?.map UInt8.toNat = some n ∧ 2 ≤ n ∧ n ≤ bytes.length ∧
      entries = bytes.take n :: rest ∧ Cuts (bytes.drop n) rest := by
  obtain ⟨hentries, rfl⟩ := h
  cases entries with
  | nil => exact absurd rfl hne
  | cons entry rest =>
      obtain ⟨htwo, hsecond⟩ := hentries entry List.mem_cons_self
      refine ⟨entry.length, rest, ?_, htwo, ?_, ?_, ?_, ?_⟩
      · rw [List.flatten_cons, List.getElem?_append_left (by omega)]
        exact hsecond
      · simp
      · simp
      · exact fun entry' hentry' => hentries entry' (List.mem_cons_of_mem _ hentry')
      · simp

theorem cons {n : Nat} (hsecond : bytes[1]?.map UInt8.toNat = some n) (htwo : 2 ≤ n)
    (hlen : n ≤ bytes.length) (h : Cuts (bytes.drop n) rest) : Cuts bytes (bytes.take n :: rest) := by
  have hlength : (bytes.take n).length = n := List.length_take_of_le hlen
  constructor
  · intro entry hentry
    rcases List.mem_cons.mp hentry with rfl | hentry
    · refine ⟨by omega, ?_⟩
      rw [hlength, List.getElem?_take_of_lt (by omega)]
      exact hsecond
    · exact h.entry entry hentry
  · rw [List.flatten_cons, h.flatten, List.take_append_drop]

theorem unique {entries' : List (List UInt8)} (h : Cuts bytes entries)
    (h' : Cuts bytes entries') : entries = entries' := by
  induction entries generalizing bytes entries' with
  | nil =>
      have hempty : bytes = [] := h.flatten.symm
      cases entries' with
      | nil => rfl
      | cons entry' rest' =>
          have htwo := (h'.entry entry' List.mem_cons_self).1
          have hflat := h'.flatten
          rw [hempty, List.flatten_cons, List.append_eq_nil_iff] at hflat
          rw [hflat.1] at htwo
          exact absurd htwo (by decide)
  | cons entry rest ih =>
      have hne : bytes ≠ [] := by
        rintro rfl
        have htwo := (h.entry entry List.mem_cons_self).1
        have hflat := h.flatten
        rw [List.flatten_cons, List.append_eq_nil_iff] at hflat
        rw [hflat.1] at htwo
        exact absurd htwo (by decide)
      obtain ⟨n, tail, hn, _, _, heq, htail⟩ := h.head hne
      obtain ⟨n', tail', hn', _, _, heq', htail'⟩ := h'.head hne
      rw [hn, Option.some_inj] at hn'
      subst hn'
      obtain ⟨rfl, rfl⟩ := List.cons_eq_cons.mp heq
      rw [heq', ih htail htail']

end Cuts

/-! ## The walk over the table -/

/-- The errors about the length of an entry. -/
def lengthErrors : List String := ["truncated ACPI MADT entry", "invalid ACPI MADT entry length"]

/-- A round that finds an entry. -/
theorem parseEntries_round {table : Slice UInt8} {offset rounds : Nat} {result : ApicInfo}
    {entryType length : UInt8} (hsize : table.length < 2 ^ 63)
    (htype : table.items[offset]? = some entryType)
    (hlength : table.items[offset + 1]? = some length) (htwo : 2 ≤ length.toNat)
    (hstop : offset + length.toNat ≤ table.length) :
    parseEntries table (rounds + 1) offset result =
      parseEntries table rounds (offset + length.toNat)
        (applyEntry result ((table.items.drop offset).take length.toNat)) := by
  have hword : 2 ^ 63 + 256 < wordSize := lt_wordSize (by decide)
  have hsmall : ¬ length < 2 := by
    rw [UInt8.lt_iff_toNat_lt]
    exact Nat.not_lt.mpr htwo
  have hentry : (table.between offset (offset + length.toNat)).items =
      (table.items.drop offset).take length.toNat := by
    simp [Slice.between]
  have hlen : (table.between offset (offset + length.toNat)).length = length.toNat := by
    rw [Slice.length_between hstop]
    omega
  have hparse := @parseEntry_eq (table.between offset (offset + length.toNat)) entryType result (by
    rw [hentry, List.getElem?_take_of_lt (by omega), List.getElem?_drop]
    exact htype)
  rw [hlen, hentry] at hparse
  rw [parseEntries, if_pos (by omega), add_of_lt (by omega), ok_bind, reject, if_neg (by omega),
    ok_bind, Slice.index_eq_ok htype, ok_bind, add_of_lt (by omega), ok_bind,
    Slice.index_eq_ok hlength, ok_bind, reject, if_neg hsmall, ok_bind, add_of_lt (by omega), ok_bind,
    reject, if_neg (by omega), ok_bind, Slice.range_of_le (by omega) hstop, ok_bind, hparse, ok_bind]

/-- A round that finds no entry. -/
theorem parseEntries_error {table : Slice UInt8} {offset rounds : Nat} {result : ApicInfo}
    (hsize : table.length < 2 ^ 63) (hmore : offset < table.length)
    (hbad : ∀ length : UInt8, table.items[offset + 1]? = some length →
      length.toNat < 2 ∨ table.length < offset + length.toNat) :
    ∃ text ∈ lengthErrors, parseEntries table (rounds + 1) offset result = error text := by
  have hword : 2 ^ 63 + 256 < wordSize := lt_wordSize (by decide)
  rw [parseEntries, if_pos hmore, add_of_lt (by omega), ok_bind]
  by_cases hhead : table.length < offset + 2
  · rw [reject, if_pos hhead]
    exact ⟨_, List.mem_cons_self, rfl⟩
  · obtain ⟨entryType, htype⟩ : ∃ entryType, table.items[offset]? = some entryType :=
      ⟨_, List.getElem?_eq_getElem hmore⟩
    obtain ⟨length, hlength⟩ : ∃ length, table.items[offset + 1]? = some length :=
      ⟨_, List.getElem?_eq_getElem (show offset + 1 < table.length by omega)⟩
    have hbyte := length.toNat_lt
    rw [reject, if_neg hhead, ok_bind, Slice.index_eq_ok htype, ok_bind, add_of_lt (by omega), ok_bind,
      Slice.index_eq_ok hlength, ok_bind, reject, add_of_lt (by omega)]
    refine ⟨_, List.mem_cons_of_mem _ List.mem_cons_self, ?_⟩
    by_cases hsmall : length < 2
    · rw [if_pos hsmall, error_bind]
    · rw [UInt8.lt_iff_toNat_lt] at hsmall
      have hpast := (hbad length hlength).resolve_left hsmall
      rw [if_neg (by rwa [UInt8.lt_iff_toNat_lt]), ok_bind, ok_bind, reject, if_pos hpast, error_bind]

/-- **The walk**: it visits the entries into which the rest of the table can be cut,
or it reports a length and there is no such cut. -/
theorem parseEntries_spec {table : Slice UInt8} (hsize : table.length < 2 ^ 63) (rounds : Nat) :
    ∀ {offset : Nat} {result : ApicInfo}, offset ≤ table.length → table.length < rounds + offset →
    (∃ entries, Cuts (table.items.drop offset) entries ∧
      parseEntries table rounds offset result = ok (entries.foldl applyEntry result)) ∨
    ((∀ entries, ¬ Cuts (table.items.drop offset) entries) ∧
      ∃ text ∈ lengthErrors, parseEntries table rounds offset result = error text) := by
  have hlen : table.items.length = table.length := rfl
  induction rounds with
  | zero =>
      intro offset result hoffset hrounds
      omega
  | succ rounds ih =>
      intro offset result hoffset hrounds
      by_cases hmore : offset < table.length
      · have hne : table.items.drop offset ≠ [] := by
          rw [Ne, List.drop_eq_nil_iff]
          omega
        have hdrop : (table.items.drop offset).length = table.length - offset := List.length_drop
        have hsecond : (table.items.drop offset)[1]? = table.items[offset + 1]? := List.getElem?_drop
        by_cases hgood : ∃ length : UInt8, table.items[offset + 1]? = some length ∧
            2 ≤ length.toNat ∧ offset + length.toNat ≤ table.length
        · -- an entry: the rest of the table decides
          obtain ⟨length, hlength, htwo, hstop⟩ := hgood
          obtain ⟨entryType, htype⟩ : ∃ entryType, table.items[offset]? = some entryType :=
            ⟨_, List.getElem?_eq_getElem hmore⟩
          have hn : (table.items.drop offset)[1]?.map UInt8.toNat = some length.toNat := by
            rw [hsecond, hlength]
            rfl
          rw [parseEntries_round hsize htype hlength htwo hstop]
          rcases @ih (offset + length.toNat) (applyEntry result _) hstop (by omega) with
            ⟨rest, hcuts, heval⟩ | ⟨hnone, herror⟩
          · rw [← List.drop_drop] at hcuts
            exact .inl ⟨_, Cuts.cons hn htwo (by omega) hcuts, heval⟩
          · refine .inr ⟨fun entries hcuts => ?_, herror⟩
            obtain ⟨n, rest, hn', _, _, _, hrest⟩ := hcuts.head hne
            rw [hn, Option.some_inj] at hn'
            rw [← hn', List.drop_drop] at hrest
            exact hnone rest hrest
        · refine .inr ⟨fun entries hcuts => ?_, parseEntries_error hsize hmore fun length hlength => ?_⟩
          · obtain ⟨n, rest, hn, htwo, hle, _⟩ := hcuts.head hne
            rw [hsecond, Option.map_eq_some_iff] at hn
            obtain ⟨length, hlength, rfl⟩ := hn
            exact hgood ⟨length, hlength, htwo, by omega⟩
          · by_contra hnot
            exact hgood ⟨length, hlength, by omega, by omega⟩
      · refine .inl ⟨[], ⟨fun entry hentry => (nomatch hentry), ?_⟩, ?_⟩
        · exact (List.drop_eq_nil_of_le (by omega)).symm
        · rw [parseEntries, if_neg hmore]
          rfl

/-- The parser behind a header, by the outcome of the walk. -/
theorem parseMadt_eq {table : Slice UInt8} (hlong : MADT_HEADER_SIZE ≤ table.length) :
    parseMadt table = (do
      let result ← parseEntries table (table.length + 1) MADT_HEADER_SIZE
        (madtInfo (field table.items 36 4) [])
      reject (result.localApicAddress = 0) "ACPI MADT has no local APIC address"
      reject (result.ioApicCount = 0) "ACPI MADT has no IOAPIC"
      ok result) := by
  have hheader : 36 + 4 ≤ table.length := by
    have : MADT_HEADER_SIZE = 44 := rfl
    omega
  rw [parseMadt, reject, if_neg (Nat.not_lt.mpr hlong), ok_bind, readU32, readLe_ok hheader, ok_bind,
    madtInfo_nil]

/-- **The parser reads exactly the entries of the table.** It never panics, so no
load leaves its entry and the walk ends. A table too short for the header is
rejected. Otherwise it reports an entry's length if and only if the bytes behind
the header cannot be cut into entries; if they can, it fails only for want of a
local APIC address or of an I/O APIC, and returns what the entries describe. -/
theorem parseMadt_exact (table : Slice UInt8) (hsize : table.length < 2 ^ 63) :
    parseMadt table ≠ panic ∧
    (table.length < MADT_HEADER_SIZE → parseMadt table = error "ACPI MADT is truncated") ∧
    (MADT_HEADER_SIZE ≤ table.length →
      ((∃ text ∈ lengthErrors, parseMadt table = error text) ↔
        ¬ ∃ entries, Cuts (table.items.drop MADT_HEADER_SIZE) entries) ∧
      ∀ entries, Cuts (table.items.drop MADT_HEADER_SIZE) entries →
        parseMadt table =
          if lastLocalAddress (field table.items 36 4) entries = 0 then
            error "ACPI MADT has no local APIC address"
          else if firstIoApics entries = [] then error "ACPI MADT has no IOAPIC"
          else ok (madtInfo (field table.items 36 4) entries)) := by
  by_cases hshort : table.length < MADT_HEADER_SIZE
  · have heval : parseMadt table = error "ACPI MADT is truncated" := by
      rw [parseMadt, reject, if_pos hshort]
      rfl
    rw [heval]
    exact ⟨nofun, fun _ => rfl, fun h => absurd hshort (Nat.not_lt.mpr h)⟩
  · have hlong := Nat.not_lt.mp hshort
    have heval := parseMadt_eq hlong
    rcases @parseEntries_spec table hsize (table.length + 1) MADT_HEADER_SIZE
      (madtInfo (field table.items 36 4) []) hlong (by omega) with
      ⟨entries, hcuts, hwalk⟩ | ⟨hnone, text, htext, hwalk⟩
    · rw [hwalk, ok_bind, foldl_applyEntry] at heval
      have hresult : parseMadt table =
          if lastLocalAddress (field table.items 36 4) entries = 0 then
            error "ACPI MADT has no local APIC address"
          else if firstIoApics entries = [] then error "ACPI MADT has no IOAPIC"
          else ok (madtInfo (field table.items 36 4) entries) := by
        have haddress : (madtInfo (field table.items 36 4) entries).localApicAddress =
            lastLocalAddress (field table.items 36 4) entries := rfl
        have hcount : (madtInfo (field table.items 36 4) entries).ioApicCount = 0 ↔
            firstIoApics entries = [] := List.length_eq_zero_iff
        simp only [heval, haddress, hcount, reject]
        by_cases hzero : lastLocalAddress (field table.items 36 4) entries = 0
        · rw [if_pos hzero, if_pos hzero, error_bind]
        · rw [if_neg hzero, if_neg hzero, ok_bind]
          by_cases hnil : firstIoApics entries = []
          · rw [if_pos hnil, if_pos hnil, error_bind]
          · rw [if_neg hnil, if_neg hnil, ok_bind]
      refine ⟨?_, fun h => absurd h hshort, fun _ => ⟨?_, fun entries' hcuts' => ?_⟩⟩
      · rw [hresult]
        split_ifs <;> nofun
      · refine ⟨?_, fun hno => absurd ⟨entries, hcuts⟩ hno⟩
        rintro ⟨text, htext, herror⟩
        rw [hresult] at herror
        split_ifs at herror
        · cases herror
          exact absurd htext (by decide)
        · cases herror
          exact absurd htext (by decide)
      · rw [hcuts'.unique hcuts]
        exact hresult
    · rw [hwalk, error_bind] at heval
      rw [heval]
      refine ⟨nofun, fun h => absurd h hshort, fun _ => ⟨⟨fun _ hsome => ?_, fun _ => ⟨text, htext, rfl⟩⟩,
        fun entries hcuts => absurd hcuts (hnone entries)⟩⟩
      obtain ⟨entries, hcuts⟩ := hsome
      exact hnone entries hcuts

/-- A table with an I/O APIC and an override of the timer's IRQ. -/
def smallMadt : Slice UInt8 where
  items := List.replicate 36 0 ++ [0, 0, 0xe0, 0xfe] ++ List.replicate 4 0 ++
    [1, 12, 0, 0, 0, 0, 0xc0, 0xfe, 0, 0, 0, 0] ++ [2, 10, 0, 0, 2, 0, 0, 0, 0, 0]
  fits := by rw [wordSize]; decide

theorem parseMadt_exact_small :
    ∃ info, parseMadt smallMadt = ok info ∧ info.localApicAddress = 0xfee00000 ∧
      info.ioApicCount = 1 ∧ info.overrides[0] = some ⟨0, 2, 0⟩ := by
  have hcuts : Cuts (smallMadt.items.drop MADT_HEADER_SIZE)
      [[1, 12, 0, 0, 0, 0, 0xc0, 0xfe, 0, 0, 0, 0], [2, 10, 0, 0, 2, 0, 0, 0, 0, 0]] := by
    refine ⟨fun entry hentry => ?_, by decide⟩
    rcases List.mem_cons.mp hentry with rfl | hentry
    · exact ⟨by decide, by decide⟩
    · rcases List.mem_singleton.mp hentry with rfl
      exact ⟨by decide, by decide⟩
  have hexact := ((parseMadt_exact smallMadt (by decide)).2.2 (by decide)).2 _ hcuts
  rw [if_neg (by decide), if_neg (by decide)] at hexact
  exact ⟨_, hexact, by decide, by decide, by decide⟩

end GenericKernel.Acpi
