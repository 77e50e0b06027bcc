import GenericKernel.Lib.Bytes
import GenericKernel.Lib.Stores

/-!
# The INT 13h shim of the CD boot sector (`arch/x86/eltorito_chain.asm`)

A BIOS offers only the legacy disk calls for an emulated hard disk. The boot
sector stays resident and answers the extended read of the loader (`AH=42h`, a
packet with a linear block address) by legacy reads (`AH=02h`, one sector at a
cylinder, head and sector), one for each sector.

The variables of the shim are words in its own segment; they and its stack are
kept apart from the memory the disk is read into. `Bios` is the service that was
in the vector before, as a function of the registers of the call.

* **one turn** — `turn_eq`: the registers passed name the sector
  `(cylinder * 255 + head) * 63 + sector - 1`, and the next turn is one sector on;
* **the loop** — `next_eq`: one call for each sector of the request;
* **the offset** — the offset is a 16-bit word and the segment stays, so a buffer
  is filled exactly when each sector starts inside the segment
  (`extendedRead_honoured_iff`); past it the reads start over at the segment.
-/

namespace GenericKernel.ElTorito

open GenericKernel.Lib

def SPT : Nat := 63

def HEADS : Nat := 255

def SPC : Nat := SPT * HEADS

abbrev Memory := Nat → UInt8

/-- The address of `segment:offset`. -/
def linear (segment offset : BitVec 16) : Nat := segment.toNat * 16 + offset.toNat

section Reads

variable (memory : Memory) (segment offset : BitVec 16)

def readByte : BitVec 8 := (memory (linear segment offset)).toBitVec

def readWord : BitVec 16 := readByte memory segment (offset + 1) ++ readByte memory segment offset

def readDword : BitVec 32 := readWord memory segment (offset + 2) ++ readWord memory segment offset

end Reads

def high (word : BitVec 16) : BitVec 8 := word.extractLsb' 8 8

def low (word : BitVec 16) : BitVec 8 := word.extractLsb' 0 8

/-- The registers of a software interrupt, with the flags it has pushed. -/
structure Registers where
  ax : BitVec 16
  bx : BitVec 16
  cx : BitVec 16
  dx : BitVec 16
  si : BitVec 16
  ds : BitVec 16
  es : BitVec 16
  flags : BitVec 16

namespace Registers

def carry (regs : Registers) : Bool := regs.flags.getLsbD 0

/-- `and word [ss:bp + 6], 0xfffe` -/
def clearCarry (regs : Registers) : Registers := { regs with flags := regs.flags &&& 0xfffe }

/-- `or word [ss:bp + 6], 1` -/
def setCarry (regs : Registers) : Registers := { regs with flags := regs.flags ||| 1 }

@[simp] theorem carry_clearCarry (regs : Registers) : regs.clearCarry.carry = false := by
  simp [carry, clearCarry]

end Registers

/-- The registers the old service reads. -/
structure Call where
  ax : BitVec 16
  bx : BitVec 16
  cx : BitVec 16
  dx : BitVec 16
  es : BitVec 16

namespace Call

/-- The low eight bits are in `CH`, the high two at the top of `CL`. -/
def cylinder (call : Call) : Nat := (high call.cx).toNat + (low call.cx).toNat / 64 * 256

def head (call : Call) : Nat := (high call.dx).toNat

def sector (call : Call) : Nat := (low call.cx).toNat % 64

def drive (call : Call) : BitVec 8 := low call.dx

/-- `ES:BX` -/
def buffer (call : Call) : Nat := linear call.es call.bx

/-- The number of the sector in the geometry of the drive. -/
def lba (call : Call) : Nat := (call.cylinder * HEADS + call.head) * SPT + call.sector - 1

end Call

/-- The handler in the vector before: the memory it leaves and the carry flag. -/
abbrev Bios := Call → Memory → Memory × Bool

/-- The variables of the shim, the memory, and the calls of the old handler so far. -/
structure Shim where
  drive : BitVec 8
  head : BitVec 8
  sector : BitVec 8
  count : BitVec 16
  bufoff : BitVec 16
  bufseg : BitVec 16
  cyl : BitVec 16
  lba : BitVec 32
  memory : Memory
  calls : List Call

namespace Shim

/-- The registers `next` has loaded at `call far`. -/
def call (s : Shim) : Call where
  ax := 0x0201
  bx := s.bufoff
  -- `CL` has the sector and, from `shr ax, 2`, bits 8 and 9 of the cylinder
  cx := low s.cyl ++ (s.sector ||| (low (s.cyl >>> 2) &&& 0xc0))
  dx := s.head ++ s.drive
  es := s.bufseg

/-- The two divisions of `next`, by which the cylinder, head and sector are set; an error is
a jump to `fail`. -/
def locate (s : Shim) : Except Shim Shim :=
  -- `div` with `EDX` zero
  let eax := s.lba / BitVec.ofNat 32 SPC
  let edx := s.lba % BitVec.ofNat 32 SPC
  if 1023 < eax then .error s
  else
    let s := { s with cyl := eax.setWidth 16 }
    let eax := edx / BitVec.ofNat 32 SPT
    let edx := edx % BitVec.ofNat 32 SPT
    if BitVec.ofNat 32 (HEADS - 1) < eax then .error s
    else .ok { s with head := eax.setWidth 8, sector := edx.setWidth 8 + 1 }

/-- The legacy read of one sector, and the variables for the next one. -/
def readSector (bios : Bios) (s : Shim) : Except Shim Shim :=
  let (memory, carry) := bios s.call s.memory
  let s := { s with memory, calls := s.calls ++ [s.call] }
  if carry then .error s
  else .ok { s with lba := s.lba + 1, bufoff := s.bufoff + 512, count := s.count - 1 }

/-- One turn of `next`, up to its `jnz`. -/
def turn (bios : Bios) (s : Shim) : Except Shim Shim := do
  let s ← s.locate
  s.readSector bios

/-- `next`, for at most `fuel` turns: the carry flag to return, and the state. -/
def next (bios : Bios) : Nat → Shim → Option (Bool × Shim)
  | 0, _ => none
  | fuel + 1, s =>
      match s.turn bios with
      | .error s => some (true, s)
      | .ok s => if s.count = 0 then some (false, s) else next bios fuel s

/-- The extended read of the packet at `DS:SI`. -/
def extendedRead (bios : Bios) (s : Shim) (regs : Registers) : Option (Bool × Shim) :=
  if readByte s.memory regs.ds regs.si < 0x10 then some (true, s)
  else
    let count := readWord s.memory regs.ds (regs.si + 2)
    if count = 0 then some (false, s)
    else
      let s := { s with
        count
        bufoff := readWord s.memory regs.ds (regs.si + 4)
        bufseg := readWord s.memory regs.ds (regs.si + 6) }
      if readDword s.memory regs.ds (regs.si + 12) ≠ 0 then some (true, s)
      -- `count` is a word: it is zero after at most `2 ^ 16` turns
      else next bios (2 ^ 16) { s with lba := readDword s.memory regs.ds (regs.si + 8) }

end Shim

/-- How the interrupt ends: by `iret`, or in the old handler with the registers as they were. -/
inductive Ended
  | returned (regs : Registers) (s : Shim)
  | chained

def int13 (bios : Bios) (s : Shim) (regs : Registers) : Option Ended :=
  if low regs.dx ≠ s.drive then some .chained
  else if high regs.ax = 0x41 then
    some (.returned { regs.clearCarry with
      bx := 0xaa55, cx := 1, ax := (0x30 : BitVec 8) ++ low regs.ax } s)
  else if high regs.ax ≠ 0x42 then some .chained
  else
    match s.extendedRead bios regs with
    | none => none
    | some (true, s) => some (.returned regs.setCarry s)
    | some (false, s) => some (.returned regs.clearCarry s)

/-! ## One sector -/

/-- The registers name the sector with number `lba`. -/
structure Call.Names (call : Call) (lba : Nat) : Prop where
  lba_eq : (call.cylinder * 255 + call.head) * 63 + call.sector - 1 = lba
  one_le : 1 ≤ call.sector
  le_63 : call.sector ≤ 63

theorem Call.Names.lba {call : Call} {lba : Nat} (h : call.Names lba) : call.lba = lba := h.lba_eq

abbrev Sector := Vector UInt8 512

@[irreducible] def sectorStores (address : Nat) (sector : Sector) : List Store :=
  List.ofFn fun j : Fin 512 => ⟨address + j, sector[j]⟩

/-- The old handler reads a sector of the drive to `ES:BX` on `AX=0201h`. -/
def Serves (bios : Bios) (drive : BitVec 8) (disk : Nat → Sector) : Prop :=
  ∀ call memory, call.ax = 0x0201 → call.drive = drive → call.cylinder ≤ 1023 → call.head < HEADS →
    1 ≤ call.sector →
    bios call memory = (stored memory (sectorStores call.buffer (disk call.lba)), false)

theorem high_append (a b : BitVec 8) : high (a ++ b) = a := BitVec.extractLsb'_append_eq_left

theorem low_append (a b : BitVec 8) : low (a ++ b) = b := BitVec.extractLsb'_append_eq_right

theorem toNat_low (word : BitVec 16) : (low word).toNat = word.toNat % 256 := by
  simp [low]

/-- The head of a sector. -/
theorem head_lt (lba : Nat) : lba % SPC / SPT < 255 := by
  rw [SPC, SPT, HEADS]
  omega

/-- The sector, counted from zero. -/
theorem sector_lt (lba : Nat) : lba % SPC % SPT < 63 := Nat.mod_lt _ (by decide)

theorem lba_of_chs (lba : Nat) :
    (lba / SPC * 255 + lba % SPC / SPT) * 63 + lba % SPC % SPT = lba := by
  rw [SPC, SPT, HEADS]
  omega

/-- A sector number and the two top bits of a byte do not overlap. -/
theorem toNat_or_and {sector byte : BitVec 8} (h : sector.toNat < 64) :
    (sector ||| (byte &&& 0xc0)).toNat = sector.toNat + byte.toNat / 64 * 64 := by
  have htop : ∀ byte : BitVec 8, (byte &&& 0xc0).toNat = 2 ^ 6 * (byte.toNat / 64) := by decide +kernel
  rw [BitVec.toNat_or, htop, Nat.or_comm, ← Nat.two_pow_add_eq_or_of_lt h]
  omega

namespace Shim

variable {s : Shim} {bios : Bios} {disk : Nat → Sector}

theorem cylinder_call (hcyl : s.cyl.toNat ≤ 1023) (hsector : s.sector.toNat < 64) :
    s.call.cylinder = s.cyl.toNat := by
  have hshift : (s.cyl >>> 2).toNat = s.cyl.toNat / 4 := by
    rw [BitVec.toNat_ushiftRight, Nat.shiftRight_eq_div_pow]
  unfold Call.cylinder call
  rw [high_append, low_append, toNat_or_and hsector, toNat_low, toNat_low, hshift]
  omega

theorem sector_call (hsector : s.sector.toNat < 64) : s.call.sector = s.sector.toNat := by
  unfold Call.sector call
  rw [low_append, toNat_or_and hsector]
  omega

theorem drive_call : s.call.drive = s.drive := low_append ..

/-- The variables after the divisions. -/
structure Located (s s' : Shim) : Prop where
  cyl : s'.cyl.toNat = s.lba.toNat / SPC
  head : s'.head.toNat = s.lba.toNat % SPC / SPT
  sector : s'.sector.toNat = s.lba.toNat % SPC % SPT + 1

theorem locate_eq (hcyl : s.lba.toNat / SPC ≤ 1023) :
    ∃ cyl head sector, s.locate = .ok { s with cyl, head, sector }
      ∧ Located s { s with cyl, head, sector } := by
  have heax : (s.lba / BitVec.ofNat 32 SPC).toNat = s.lba.toNat / SPC := rfl
  have hhead : (s.lba % BitVec.ofNat 32 SPC / BitVec.ofNat 32 SPT).toNat
      = s.lba.toNat % SPC / SPT := rfl
  have hsector : (s.lba % BitVec.ofNat 32 SPC % BitVec.ofNat 32 SPT).toNat
      = s.lba.toNat % SPC % SPT := rfl
  have hhead_lt := head_lt s.lba.toNat
  have hsector_lt := sector_lt s.lba.toNat
  have hcyl' : ¬ (1023 : BitVec 32) < s.lba / BitVec.ofNat 32 SPC := by
    rw [BitVec.lt_def, heax]
    exact Nat.not_lt.mpr hcyl
  have hhead' : ¬ BitVec.ofNat 32 (HEADS - 1)
      < s.lba % BitVec.ofNat 32 SPC / BitVec.ofNat 32 SPT := by
    rw [BitVec.lt_def, hhead]
    exact Nat.not_lt.mpr (Nat.le_of_lt_succ hhead_lt)
  refine ⟨_, _, _, (if_neg hcyl').trans (if_neg hhead'), ?_, ?_, ?_⟩
  · rw [BitVec.toNat_setWidth, heax]
    omega
  · rw [BitVec.toNat_setWidth, hhead]
    omega
  · rw [BitVec.toNat_add, BitVec.toNat_setWidth, hsector]
    show (_ % 2 ^ 8 + 1) % 2 ^ 8 = _ + 1
    omega

theorem Located.names {s' : Shim} (h : Located s s') (hcyl : s.lba.toNat / SPC ≤ 1023) :
    s'.call.Names s.lba.toNat ∧ s'.call.cylinder ≤ 1023 ∧ s'.call.head < HEADS := by
  have hhead_lt := head_lt s.lba.toNat
  have hsector_lt := sector_lt s.lba.toNat
  have hlba := lba_of_chs s.lba.toNat
  have hsector : s'.call.sector = s.lba.toNat % SPC % SPT + 1 := by
    rw [sector_call (by rw [h.sector]; omega), h.sector]
  have hcylinder : s'.call.cylinder = s.lba.toNat / SPC := by
    rw [cylinder_call (by rw [h.cyl]; exact hcyl) (by rw [h.sector]; omega), h.cyl]
  have hhead : s'.call.head = s.lba.toNat % SPC / SPT :=
    (congrArg BitVec.toNat (high_append ..)).trans h.head
  refine ⟨⟨?_, ?_, ?_⟩, ?_, ?_⟩
  · rw [hcylinder, hhead, hsector]
    exact hlba
  · omega
  · omega
  · rwa [hcylinder]
  · rw [hhead]
    exact hhead_lt

/-- What a turn that goes well changes. -/
structure Turned (disk : Nat → Sector) (s s' : Shim) : Prop where
  drive : s'.drive = s.drive
  count : s'.count = s.count - 1
  bufoff : s'.bufoff = s.bufoff + 512
  bufseg : s'.bufseg = s.bufseg
  lba : s'.lba = s.lba + 1
  memory : s'.memory =
    stored s.memory (sectorStores (linear s.bufseg s.bufoff) (disk s.lba.toNat))
  calls : ∃ call : Call, s'.calls = s.calls ++ [call] ∧ call.Names s.lba.toNat

theorem readSector_eq {memory : Memory} (h : bios s.call s.memory = (memory, false)) :
    s.readSector bios = .ok { s with
      memory, calls := s.calls ++ [s.call]
      lba := s.lba + 1, bufoff := s.bufoff + 512, count := s.count - 1 } := by
  rw [readSector, h]
  rfl

theorem turn_eq (hserves : Serves bios s.drive disk) (hcyl : s.lba.toNat / SPC ≤ 1023) :
    ∃ s', s.turn bios = .ok s' ∧ Turned disk s s' := by
  obtain ⟨cyl, head, sector, hlocate, h⟩ := locate_eq hcyl
  obtain ⟨hnames, hcylinder, hhead⟩ := h.names hcyl
  have hcall := hserves _ s.memory rfl (drive_call (s := { s with cyl, head, sector })) hcylinder
    hhead hnames.one_le
  rw [hnames.lba] at hcall
  have hturn : s.turn bios = readSector bios { s with cyl, head, sector } := by
    rw [turn, hlocate]
    rfl
  exact ⟨_, hturn.trans (readSector_eq hcall), rfl, rfl, rfl, rfl, rfl, rfl, _, rfl, hnames⟩

end Shim

/-! ## One request -/

/-- The stores of a request: the offset is a word. -/
def requestStores (disk : Nat → Sector) (segment offset : BitVec 16) (lba count : Nat) : List Store :=
  (List.range count).flatMap fun k =>
    sectorStores (linear segment (offset + BitVec.ofNat 16 (512 * k))) (disk (lba + k))

theorem requestStores_succ (disk : Nat → Sector) (segment offset : BitVec 16) (lba count : Nat) :
    requestStores disk segment offset lba (count + 1)
      = sectorStores (linear segment offset) (disk lba)
        ++ requestStores disk segment (offset + 512) (lba + 1) count := by
  have hoffset (k : Nat) : offset + 512 + BitVec.ofNat 16 (512 * k)
      = offset + BitVec.ofNat 16 (512 * (k + 1)) := by
    rw [BitVec.add_assoc, Nat.mul_succ, Nat.add_comm (512 * k), BitVec.ofNat_add]
    rfl
  simp only [requestStores, List.range_succ_eq_map, List.flatMap_cons, List.flatMap_map, hoffset,
    Nat.mul_zero, Nat.add_zero, BitVec.add_zero, Nat.succ_eq_add_one, Nat.add_assoc,
    Nat.add_comm 1]

/-- The call for each sector in turn. -/
def Named (calls : List Call) (lba count : Nat) : Prop :=
  List.Forall₂ Call.Names calls (List.range' lba count)

namespace Shim

variable {bios : Bios} {disk : Nat → Sector}

/-- The loop reads as many sectors as `count` says, by induction on it. -/
theorem next_eq {n : Nat} : ∀ {fuel : Nat} {s : Shim}, n < fuel → s.count.toNat = n + 1 →
    Serves bios s.drive disk → (∀ k ≤ n, (s.lba.toNat + k) / SPC ≤ 1023) →
    ∃ s' calls, s.next bios fuel = some (false, s')
      ∧ s'.memory = stored s.memory (requestStores disk s.bufseg s.bufoff s.lba.toNat (n + 1))
      ∧ s'.calls = s.calls ++ calls ∧ Named calls s.lba.toNat (n + 1) := by
  induction n with
  | zero =>
      intro fuel s hfuel hcount hserves hcyl
      obtain ⟨fuel, rfl⟩ := Nat.exists_eq_add_of_lt hfuel
      obtain ⟨t, hturn, ht⟩ := turn_eq hserves (hcyl 0 le_rfl)
      obtain ⟨call, hcalls, hnames⟩ := ht.calls
      have hzero : t.count = 0 := by
        rw [ht.count]
        bv_omega
      refine ⟨t, [call], ?_, ?_, hcalls, .cons hnames .nil⟩
      · rw [next, hturn]
        exact if_pos hzero
      · rw [ht.memory, requestStores_succ]
        exact congrArg _ (List.append_nil _).symm
  | succ n ih =>
      intro fuel s hfuel hcount hserves hcyl
      obtain ⟨fuel, rfl⟩ := Nat.exists_eq_add_of_lt hfuel
      obtain ⟨t, hturn, ht⟩ := turn_eq hserves (hcyl 0 (Nat.zero_le _))
      obtain ⟨call, hcalls, hnames⟩ := ht.calls
      have hcount' : t.count.toNat = n + 1 := by
        rw [ht.count]
        bv_omega
      have hlba : t.lba.toNat = s.lba.toNat + 1 := by
        have hsmall := hcyl 0 (Nat.zero_le _)
        rw [SPC, SPT, HEADS] at hsmall
        rw [ht.lba]
        bv_omega
      have hfuel' : n < n + 1 + fuel := by omega
      have hcyl' (k : Nat) (hk : k ≤ n) : (t.lba.toNat + k) / SPC ≤ 1023 := by
        rw [hlba, Nat.add_assoc, Nat.add_comm 1]
        exact hcyl (k + 1) (Nat.succ_le_succ hk)
      obtain ⟨s', calls, hnext, hmemory, hcalls', hnamed⟩ :=
        ih hfuel' hcount' (ht.drive ▸ hserves) hcyl'
      refine ⟨s', call :: calls, ?_, ?_, ?_, ?_⟩
      · rw [next, hturn]
        dsimp only
        rw [if_neg, hnext]
        rintro hzero
        rw [hzero] at hcount'
        exact nomatch hcount'
      · rw [hmemory, ht.memory, ht.bufseg, ht.bufoff, hlba, requestStores_succ disk _ _ s.lba.toNat]
        exact stored_append
      · rw [hcalls', hcalls, List.append_assoc]
        rfl
      · rw [hlba] at hnamed
        exact .cons hnames hnamed

end Shim

section Addresses

variable {disk : Nat → Sector} {segment offset : BitVec 16} {lba count : Nat} {memory : Memory}

theorem mem_sectorStores {address : Nat} {sector : Sector} {store : Store} :
    store ∈ sectorStores address sector ↔ ∃ j : Fin 512, ⟨address + j, sector[j]⟩ = store := by
  unfold sectorStores
  exact List.mem_ofFn

theorem mem_requestStores {store : Store} :
    store ∈ requestStores disk segment offset lba count ↔ ∃ k < count, ∃ j : Fin 512,
      ⟨segment.toNat * 16 + (offset.toNat + 512 * k) % 2 ^ 16 + j, (disk (lba + k))[j]⟩ = store := by
  simp only [requestStores, linear, List.mem_flatMap, List.mem_range, mem_sectorStores,
    BitVec.toNat_add, BitVec.toNat_ofNat, Nat.add_mod_mod]

/-- As long as each sector starts inside the segment, sectors follow one another. -/
theorem filled_of_lt (h : ∀ k < count, offset.toNat + 512 * k < 2 ^ 16) {k : Nat} (hk : k < count)
    (j : Fin 512) :
    stored memory (requestStores disk segment offset lba count)
      (segment.toNat * 16 + offset.toNat + 512 * k + j) = (disk (lba + k))[j] := by
  apply stored_of_forall
  · intro store hstore haddress
    obtain ⟨k', hk', j', rfl⟩ := mem_requestStores.mp hstore
    rw [Nat.mod_eq_of_lt (h k' hk')] at haddress
    dsimp only at haddress ⊢
    obtain rfl : k' = k := by omega
    obtain rfl : j' = j := Fin.ext (by omega)
    rfl
  · refine .inr ⟨_, mem_requestStores.mpr ⟨k, hk, j, rfl⟩, ?_⟩
    dsimp only
    rw [Nat.mod_eq_of_lt (h k hk)]
    omega

/-- The end of a sector that would start past the segment is not written at all. -/
theorem unfilled_of_le {k : Nat} (h : 2 ^ 16 ≤ offset.toNat + 512 * k) :
    stored memory (requestStores disk segment offset lba count)
      (segment.toNat * 16 + offset.toNat + 512 * k + 511)
      = memory (segment.toNat * 16 + offset.toNat + 512 * k + 511) := by
  apply stored_of_forall_ne
  intro store hstore
  obtain ⟨k', -, j, rfl⟩ := mem_requestStores.mp hstore
  have hlt := Nat.mod_lt (offset.toNat + 512 * k') (Nat.two_pow_pos 16)
  have hj := j.isLt
  dsimp only
  omega

end Addresses

/-! ## The interrupt -/

/-- The disk address packet of an extended read. -/
structure Packet where
  size : Nat
  count : Nat
  offset : Nat
  segment : Nat
  lba : Nat

/-- The packet at `DS:SI`. -/
def Registers.packet (regs : Registers) (memory : Memory) : Packet where
  size := (readByte memory regs.ds regs.si).toNat
  count := (readWord memory regs.ds (regs.si + 2)).toNat
  offset := (readWord memory regs.ds (regs.si + 4)).toNat
  segment := (readWord memory regs.ds (regs.si + 6)).toNat
  lba := (readDword memory regs.ds (regs.si + 8)).toNat
    + 2 ^ 32 * (readDword memory regs.ds (regs.si + 12)).toNat

/-- An extended read on the drive of the shim, of sectors a cylinder number exists for. -/
structure Request (s : Shim) (regs : Registers) : Prop where
  drive : low regs.dx = s.drive
  function : high regs.ax = 0x42
  size : 16 ≤ (regs.packet s.memory).size
  cylinder : ∀ k < (regs.packet s.memory).count, ((regs.packet s.memory).lba + k) / (255 * 63) ≤ 1023

/-- What the caller of an extended read is owed. -/
structure Honoured (disk : Nat → Sector) (packet : Packet) (s : Shim) (regs' : Registers)
    (s' : Shim) : Prop where
  carry : regs'.carry = false
  filled : ∀ k < packet.count, ∀ j : Fin 512,
    s'.memory (packet.segment * 16 + packet.offset + 512 * k + j) = (disk (packet.lba + k))[j]
  calls : ∃ calls, s'.calls = s.calls ++ calls ∧ Named calls packet.lba packet.count

namespace Request

variable {s : Shim} {regs : Registers} {bios : Bios} {disk : Nat → Sector}

/-- The stores and calls of the answer, for any buffer. -/
theorem extendedRead_eq (h : Request s regs) (hserves : Serves bios s.drive disk) :
    ∃ s' calls, s.extendedRead bios regs = some (false, s')
      ∧ s'.memory = stored s.memory (requestStores disk (readWord s.memory regs.ds (regs.si + 6))
          (readWord s.memory regs.ds (regs.si + 4)) (regs.packet s.memory).lba
          (regs.packet s.memory).count)
      ∧ s'.calls = s.calls ++ calls
      ∧ Named calls (regs.packet s.memory).lba (regs.packet s.memory).count := by
  obtain ⟨-, -, hsize, hcylinder⟩ := h
  unfold Registers.packet at hsize hcylinder ⊢
  dsimp only at hsize hcylinder ⊢
  unfold Shim.extendedRead
  have hsize' : ¬ readByte s.memory regs.ds regs.si < 0x10 := by
    rw [BitVec.lt_def]
    exact Nat.not_lt.mpr hsize
  rw [if_neg hsize']
  generalize readWord s.memory regs.ds (regs.si + 2) = count at hcylinder ⊢
  by_cases hzero : count = 0
  · subst hzero
    exact ⟨s, [], rfl, rfl, (List.append_nil _).symm, .nil⟩
  · have hpos : 0 < count.toNat := by bv_omega
    have hhigh : readDword s.memory regs.ds (regs.si + 12) = 0 := by
      have hsmall := hcylinder 0 hpos
      apply BitVec.eq_of_toNat_eq
      show _ = 0
      omega
    obtain ⟨n, hn⟩ := Nat.exists_eq_add_of_lt hpos
    rw [Nat.zero_add] at hn
    have hlt := count.isLt
    rw [if_neg hzero, if_neg (not_not.mpr hhigh), hhigh, hn]
    rw [hhigh, hn] at hcylinder
    exact Shim.next_eq (s := { s with
      count
      bufoff := readWord s.memory regs.ds (regs.si + 4)
      bufseg := readWord s.memory regs.ds (regs.si + 6)
      lba := readDword s.memory regs.ds (regs.si + 8) }) (by omega) hn hserves
      fun k hk => hcylinder k (Nat.lt_succ_of_le hk)

/-- The answer itself: it depends on the buffer only in where the sectors are stored. -/
theorem int13_eq (h : Request s regs) {s' : Shim}
    (hread : s.extendedRead bios regs = some (false, s')) :
    int13 bios s regs = some (.returned regs.clearCarry s') := by
  unfold int13
  rw [if_neg (not_not.mpr h.drive), h.function, hread]
  rfl

end Request

/-- A handler for a disk. -/
def Bios.ofDisk (disk : Nat → Sector) : Bios := fun call memory =>
  (stored memory (sectorStores call.buffer (disk call.lba)), false)

theorem serves_ofDisk (disk : Nat → Sector) (drive : BitVec 8) :
    Serves (Bios.ofDisk disk) drive disk := fun _ _ _ _ _ _ _ => rfl

/-- A request is honoured, whatever is on the disk, exactly when each of its sectors starts
inside the segment of the buffer. -/
theorem extendedRead_honoured_iff (s : Shim) (regs : Registers) (hrequest : Request s regs) :
    (∀ bios disk, Serves bios s.drive disk → ∃ regs' s',
        int13 bios s regs = some (.returned regs' s')
          ∧ Honoured disk (regs.packet s.memory) s regs' s')
      ↔ ∀ k < (regs.packet s.memory).count, (regs.packet s.memory).offset + 512 * k < 2 ^ 16 := by
  constructor
  · intro h k hk
    by_contra hpast
    -- a disk whose bytes are not what the memory has at the end of the sector
    let byte := s.memory ((regs.packet s.memory).segment * 16 + (regs.packet s.memory).offset
      + 512 * k + 511)
    let disk : Nat → Sector := fun _ => Vector.replicate 512 (byte + 1)
    have hserves := serves_ofDisk disk s.drive
    obtain ⟨regs', s', hint, hhonoured⟩ := h _ disk hserves
    obtain ⟨t, -, hread, hmemory, -⟩ := hrequest.extendedRead_eq hserves
    obtain ⟨rfl, rfl⟩ : regs.clearCarry = regs' ∧ t = s' := by
      simpa using (hrequest.int13_eq hread).symm.trans hint
    have hfilled := hhonoured.filled k hk ⟨511, by decide⟩
    rw [hmemory] at hfilled
    have hsame := (unfilled_of_le (Nat.le_of_not_lt hpast)).symm.trans hfilled
    have hne : byte ≠ byte + 1 := forall_byte (P := fun byte => byte ≠ byte + 1) (by decide +kernel) byte
    exact hne (hsame.trans (by simp [disk]))
  · intro h bios disk hserves
    obtain ⟨s', calls, hread, hmemory, hcalls, hnamed⟩ := hrequest.extendedRead_eq hserves
    refine ⟨_, s', hrequest.int13_eq hread, regs.carry_clearCarry, ?_, calls, hcalls, hnamed⟩
    intro k hk j
    rw [hmemory]
    exact filled_of_lt h hk j

/-- A packet at `0:0500h` for `count` sectors from the first one on, to `1000h:0`. -/
def packetMemory (count : UInt8) : Memory := fun a =>
  if a = 0x500 then 16 else if a = 0x502 then count else if a = 0x507 then 0x10 else 0

def packetRegs : Registers where
  ax := 0x4200
  bx := 0
  cx := 0
  dx := 0x0080
  si := 0x500
  ds := 0
  es := 0
  flags := 0x0202

/-- The shim of drive `80h`, before its first call. -/
def installed (memory : Memory) : Shim where
  drive := 0x80
  head := 0
  sector := 0
  count := 0
  bufoff := 0
  bufseg := 0
  cyl := 0
  lba := 0
  memory
  calls := []

/-- Three sectors of a disk whose sectors differ. -/
theorem extendedRead_honoured_iff_three : Request (installed (packetMemory 3)) packetRegs
    ∧ ∃ regs' s', int13 (Bios.ofDisk fun lba => Vector.replicate 512 (UInt8.ofNat (lba + 7)))
        (installed (packetMemory 3)) packetRegs = some (.returned regs' s')
      ∧ ∀ k < 3, s'.memory (0x10000 + 512 * k) = UInt8.ofNat (k + 7)
        ∧ s'.memory (0x10000 + 512 * k + 511) = UInt8.ofNat (k + 7) := by
  have hrequest : Request (installed (packetMemory 3)) packetRegs := by
    refine ⟨rfl, rfl, ?_, ?_⟩
    · decide
    · decide
  have honoured := (extendedRead_honoured_iff _ _ hrequest).mpr (by decide)
  obtain ⟨regs', s', hint, h⟩ := honoured _ _ (serves_ofDisk
    (fun lba => Vector.replicate 512 (UInt8.ofNat (lba + 7))) 0x80)
  refine ⟨hrequest, regs', s', hint, fun k hk => ?_⟩
  have hfirst := h.filled k hk 0
  have hlast := h.filled k hk 511
  simp only [Fin.getElem_fin, Vector.getElem_replicate] at hfirst hlast
  rw [show (packetRegs.packet (installed (packetMemory 3)).memory).lba = 0 by decide, Nat.zero_add]
    at hfirst hlast
  exact ⟨hfirst, hlast⟩

/-- A hundred and twenty-nine sectors are reported as read; the last one is stored over the
first, and its place at `20000h` is left as it was. -/
theorem sector_past_segment_lost : Request (installed (packetMemory 129)) packetRegs
    ∧ ∃ regs' s', int13 (Bios.ofDisk fun _ => Vector.replicate 512 7) (installed (packetMemory 129))
        packetRegs = some (.returned regs' s')
      ∧ regs'.carry = false ∧ (packetRegs.packet (packetMemory 129)).count = 129
      ∧ s'.memory (0x1000 * 16 + 512 * 128 + 511) = 0 := by
  have hrequest : Request (installed (packetMemory 129)) packetRegs := by
    refine ⟨rfl, rfl, ?_, ?_⟩
    · decide
    · decide
  obtain ⟨s', -, hread, hmemory, -⟩ :=
    hrequest.extendedRead_eq (serves_ofDisk (fun _ => Vector.replicate 512 7) 0x80)
  refine ⟨hrequest, _, s', hrequest.int13_eq hread, packetRegs.carry_clearCarry, rfl, ?_⟩
  have hsegment : readWord (packetMemory 129) 0 0x506 = 0x1000 := by decide
  have hoffset : readWord (packetMemory 129) 0 0x504 = 0 := by decide
  rw [hmemory]
  show stored (packetMemory 129) (requestStores _ (readWord (packetMemory 129) 0 0x506)
    (readWord (packetMemory 129) 0 0x504) _ _) ((0x1000 : BitVec 16).toNat * 16
      + (0 : BitVec 16).toNat + 512 * 128 + 511) = 0
  rw [hsegment, hoffset]
  exact (@unfilled_of_le _ 0x1000 0 _ _ _ 128 (by decide)).trans (by decide +kernel)

end GenericKernel.ElTorito
