import GenericKernel.Lib.Fallible
import GenericKernel.Tools.X128

/-!
# The x128 machine (`docs/X128.md`)

The reference machine in its own terms: sixteen 128-bit registers, a 128-bit program
counter, 64 KiB of memory. Its types rule out what the emulator has to check: a register
number is below 16, an address that is accessed is inside the memory, arithmetic wraps.

* `Machine.step` — one instruction, or a trap;
* `step_toCpu` — the emulator's step on the numbers of a machine is the machine's step;
* `emulator_closed` — so every state of every run is a machine, and the emulator ends
  with a status or an `Error`.
-/

namespace GenericKernel.X128

open GenericKernel.Lib

structure Machine where
  mem : Vector UInt8 RAM
  r : Vector (BitVec 128) 16
  pc : BitVec 128
  zero : Bool
  output : List UInt8

/-- An instruction with its register numbers. -/
structure Decoded where
  op : Op
  rd : Fin 16
  ra : Fin 16
  rb : Fin 16
  value : BitVec 128

/-- What an instruction leads to. -/
inductive Outcome where
  | next (m : Machine)
  | halted (status : BitVec 32) (output : List UInt8)

namespace Machine

/-- One of the first four bytes of an instruction, all of which is inside the memory. -/
def codeByte (m : Machine) (h : m.pc.toNat + INSN ≤ RAM) (i : Fin 4) : Nat :=
  have : INSN = 20 := rfl
  m.mem[m.pc.toNat + i].toNat

/-- The instruction at the program counter. -/
def decode (m : Machine) : Except Message Decoded :=
  if h : m.pc.toNat + INSN ≤ RAM then
    match Op.ofCode? (m.codeByte h 0) with
    | none => .error (.invalidInstruction m.pc.toNat)
    | some op =>
        if hr : m.codeByte h 1 < 16 ∧ m.codeByte h 2 < 16 ∧ m.codeByte h 3 < 16 then
          .ok ⟨op, ⟨_, hr.1⟩, ⟨_, hr.2.1⟩, ⟨_, hr.2.2⟩,
            BitVec.ofNat 128 (leNat (slice m.mem (m.pc.toNat + 4) 16))⟩
        else .error (.invalidInstruction m.pc.toNat)
  else .error (.fetchFault m.pc.toNat)

def setReg (m : Machine) (rd : Fin 16) (value : BitVec 128) : Machine :=
  { m with r := m.r.set rd value }

/-- The effect of an instruction; the program counter is already behind it. -/
def perform (m : Machine) (d : Decoded) : Except Message Outcome :=
  match d.op with
  | .nop => .ok (.next m)
  | .movi => .ok (.next (m.setReg d.rd d.value))
  | .mov => .ok (.next (m.setReg d.rd (m.r.get d.ra)))
  | .add => .ok (.next (m.setReg d.rd (m.r.get d.ra + m.r.get d.rb)))
  | .sub => .ok (.next (m.setReg d.rd (m.r.get d.ra - m.r.get d.rb)))
  | .and => .ok (.next (m.setReg d.rd (m.r.get d.ra &&& m.r.get d.rb)))
  | .or => .ok (.next (m.setReg d.rd (m.r.get d.ra ||| m.r.get d.rb)))
  | .xor => .ok (.next (m.setReg d.rd (m.r.get d.ra ^^^ m.r.get d.rb)))
  | .cmpeq => .ok (.next { m with zero := m.r.get d.ra == m.r.get d.rb })
  | .jmp => .ok (.next { m with pc := d.value })
  | .jz => .ok (.next (if m.zero then { m with pc := d.value } else m))
  | .jnz => .ok (.next (if m.zero then m else { m with pc := d.value }))
  | .load8 =>
      if h : (m.r.get d.ra + d.value).toNat < RAM then
        .ok (.next (m.setReg d.rd (m.mem[(m.r.get d.ra + d.value).toNat].toBitVec.setWidth 128)))
      else .error (.memoryFault (m.r.get d.ra + d.value).toNat)
  | .store8 =>
      if h : (m.r.get d.ra + d.value).toNat < RAM then
        let byte := UInt8.ofBitVec ((m.r.get d.rb).setWidth 8)
        .ok (.next { m with mem := m.mem.set (m.r.get d.ra + d.value).toNat byte })
      else .error (.memoryFault (m.r.get d.ra + d.value).toNat)
  | .out =>
      if d.value = 0 then
        .ok (.next { m with output := m.output ++ [UInt8.ofBitVec ((m.r.get d.ra).setWidth 8)] })
      else .error (.unsupportedPort d.value.toNat)
  | .halt => .ok (.halted (d.value.setWidth 32) m.output)

def step (m : Machine) : Except Message Outcome := do
  let d ← m.decode
  { m with pc := m.pc + BitVec.ofNat 128 INSN }.perform d

/-! ## The emulator's numbers -/

def toCpu (m : Machine) : Cpu :=
  ⟨m.mem.toList, m.r.toList.map BitVec.toNat, m.pc.toNat, m.zero, m.output⟩

/-- The same outcome on the emulator's side: a trap is an `Error`. -/
def lower : Except Message Outcome → Except Raised Stepped
  | .ok (.next m) => .ok (.next m.toCpu)
  | .ok (.halted status output) => .ok (.halted status.toNat output)
  | .error message => .error (.error message)

theorem index_r (m : Machine) (i : Fin 16) : index m.toCpu.r i = .ok (m.r.get i).toNat := by
  have hget : m.toCpu.r[i.val]? = some (m.r.get i).toNat := by
    simp [toCpu, Vector.get]
  simp [index, hget]

theorem setReg_toCpu (m : Machine) (rd : Fin 16) (value : BitVec 128) :
    m.toCpu.setReg rd value.toNat = .ok (m.setReg rd value).toCpu := by
  simp [Cpu.setReg, toCpu, setReg, Vector.toList_set, List.map_set]

theorem index_mem (m : Machine) {a : Nat} (h : a < RAM) : index m.toCpu.mem a = .ok m.mem[a] := by
  simp [index, toCpu, h]

/-- An instruction that only sets a register. -/
theorem setReg_next (m : Machine) (rd : Fin 16) {n : Nat} {value : BitVec 128}
    (h : n = value.toNat) : (do return .next (← m.toCpu.setReg rd n)) =
      lower (.ok (.next (m.setReg rd value))) := by
  rw [h, setReg_toCpu]
  rfl

theorem toNat_sub_eq (a b : BitVec 128) :
    (((a.toNat : Int) - b.toNat) % 2 ^ 128).toNat = (a - b).toNat := by
  rw [BitVec.toNat_sub]
  have := a.isLt
  have := b.isLt
  omega

/-- A byte that is loaded. -/
theorem toNat_byte (b : UInt8) : b.toNat = (b.toBitVec.setWidth 128).toNat := by
  have := b.toNat_lt
  rw [BitVec.toNat_setWidth, Nat.mod_eq_of_lt (show b.toBitVec.toNat < 2 ^ 128 by
    have : b.toBitVec.toNat = b.toNat := rfl
    omega)]
  rfl

/-- The low byte of a register. -/
theorem lowByte_eq (a : BitVec 128) : UInt8.ofBitVec (a.setWidth 8) = UInt8.ofNat a.toNat := by
  refine UInt8.toNat_inj.mp ?_
  rw [UInt8.toNat_ofNat']
  exact BitVec.toNat_setWidth 8 a

/-- **One instruction**: the emulator's branch is the machine's. -/
theorem execute_toCpu (m : Machine) (d : Decoded) (insn : Insn) (hrd : insn.rd = d.rd)
    (hra : insn.ra = d.ra) (hrb : insn.rb = d.rb) (hvalue : insn.value = d.value.toNat) :
    execute m.toCpu d.op insn = lower (m.perform d) := by
  obtain ⟨op, rd, ra, rb, value⟩ := d
  dsimp only at hrd hra hrb hvalue
  have hadd : ∀ a b : BitVec 128, (a.toNat + b.toNat) % 2 ^ 128 = (a + b).toNat :=
    fun a b => (BitVec.toNat_add a b).symm
  unfold execute perform
  dsimp only
  rw [hrd, hra, hrb, hvalue, index_r, index_r]
  cases op with
  | nop => rfl
  | movi => exact setReg_next m rd rfl
  | mov => exact setReg_next m rd rfl
  | add => exact setReg_next m rd (hadd _ _)
  | sub => exact setReg_next m rd (toNat_sub_eq _ _)
  | and => exact setReg_next m rd (BitVec.toNat_and ..).symm
  | or => exact setReg_next m rd (BitVec.toNat_or ..).symm
  | xor => exact setReg_next m rd (BitVec.toNat_xor ..).symm
  | cmpeq =>
      have heq : ((m.r.get ra).toNat == (m.r.get rb).toNat) = (m.r.get ra == m.r.get rb) := by
        rw [Bool.eq_iff_iff, beq_iff_eq, beq_iff_eq, BitVec.toNat_inj]
      exact congrArg (fun zero => (.ok (.next { m.toCpu with zero := zero }) :
        Except Raised Stepped)) heq
  | jmp => rfl
  | jz =>
      by_cases hzero : m.zero = true
      · simp only [hzero, if_true, toCpu, lower]
      · simp only [hzero, Bool.false_eq_true, if_false, toCpu, lower]
  | jnz =>
      by_cases hzero : m.zero = true
      · simp only [hzero, if_true, toCpu, lower]
      · simp only [hzero, Bool.false_eq_true, if_false, toCpu, lower]
  | load8 =>
      dsimp only [bind, Except.bind]
      rw [hadd]
      by_cases h : (m.r.get ra + value).toNat < RAM
      · rw [if_neg (Nat.not_le.mpr h), dif_pos h, index_mem m h]
        exact setReg_next m rd (toNat_byte _)
      · rw [if_pos (Nat.not_lt.mp h), dif_neg h]
        rfl
  | store8 =>
      dsimp only [bind, Except.bind]
      rw [hadd]
      by_cases h : (m.r.get ra + value).toNat < RAM
      · rw [if_neg (Nat.not_le.mpr h), dif_pos h, index_mem m h]
        simp only [pure, Except.pure, lower, toCpu, Vector.toList_set, lowByte_eq]
      · rw [if_pos (Nat.not_lt.mp h), dif_neg h]
        rfl
  | out =>
      have hport : value.toNat = 0 ↔ value = 0 := by rw [← BitVec.toNat_inj]; rfl
      dsimp only [bind, Except.bind]
      by_cases h : value = 0
      · rw [if_neg (not_not.mpr (hport.mpr h)), if_pos h]
        simp only [pure, Except.pure, lower, toCpu, lowByte_eq]
      · rw [if_pos (mt hport.mp h), if_neg h]
        rfl
  | halt =>
      have hstatus : value.toNat % 2 ^ 32 = (value.setWidth 32).toNat :=
        (BitVec.toNat_setWidth 32 value).symm
      exact congrArg (fun status => (.ok (.halted status m.output) : Except Raised Stepped)) hstatus

/-- The emulator fetches these bytes. -/
theorem fetch_toCpu (m : Machine) (h : m.pc.toNat + INSN ≤ RAM) :
    fetch m.toCpu.mem m.toCpu.pc = .ok ⟨m.codeByte h 0, m.codeByte h 1, m.codeByte h 2,
      m.codeByte h 3, leNat (slice m.mem (m.pc.toNat + 4) 16)⟩ := by
  have hinsn : INSN = 20 := rfl
  have hlength : m.mem.toList.length = RAM := m.mem.length_toList
  have hfour : (m.mem.toList.drop m.pc.toNat).take 4 =
      [m.mem[m.pc.toNat], m.mem[m.pc.toNat + 1], m.mem[m.pc.toNat + 2], m.mem[m.pc.toNat + 3]] := by
    refine List.ext_getElem (by simp; omega) fun i _ hi => ?_
    rw [List.getElem_take, List.getElem_drop]
    have hi : i < 4 := hi
    interval_cases i <;> rfl
  show fetch m.mem.toList m.pc.toNat = _
  unfold fetch
  rw [hfour]
  rfl

/-- A machine that halts returns its output so far. -/
theorem output_of_halted {m : Machine} {status : BitVec 32} {output : List UInt8}
    (h : m.step = .ok (.halted status output)) : output = m.output := by
  unfold step at h
  obtain ⟨d, _, hperform⟩ := except_bind_eq_ok.mp h
  unfold perform at hperform
  cases hop : d.op with
  | halt =>
      rw [hop] at hperform
      exact (Outcome.halted.inj (Except.ok.inj hperform)).2.symm
  | load8 | store8 | out =>
      rw [hop] at hperform
      dsimp only at hperform
      split at hperform <;> cases hperform
  | _ =>
      rw [hop] at hperform
      cases hperform

theorem step_toCpu (m : Machine) : X128.step m.toCpu = lower m.step := by
  have hram : RAM = 65536 := rfl
  have hinsn : INSN = 20 := rfl
  have hpc : m.toCpu.pc = m.pc.toNat := rfl
  unfold X128.step step decode
  by_cases h : m.pc.toNat + INSN ≤ RAM
  · rw [if_neg (by omega), dif_pos h, m.fetch_toCpu h]
    have hvalue : leNat (slice m.mem (m.pc.toNat + 4) 16) =
        (BitVec.ofNat 128 (leNat (slice m.mem (m.pc.toNat + 4) 16))).toNat := by
      have hlt := leNat_lt (slice m.mem (m.pc.toNat + 4) 16)
      rw [length_slice _ (by omega)] at hlt
      rw [BitVec.toNat_ofNat, Nat.mod_eq_of_lt (by norm_num at hlt ⊢; exact hlt)]
    dsimp only [bind, Except.bind]
    cases hop : Op.ofCode? (m.codeByte h 0) with
    | none => rfl
    | some op =>
        dsimp only
        by_cases hr : m.codeByte h 1 < 16 ∧ m.codeByte h 2 < 16 ∧ m.codeByte h 3 < 16
        · have hnext : { m.toCpu with pc := (m.toCpu.pc + INSN) % 2 ^ 128 } =
              ({ m with pc := m.pc + BitVec.ofNat 128 INSN } : Machine).toCpu := by
            have hsum : (m.pc.toNat + INSN) % 2 ^ 128 = (m.pc + BitVec.ofNat 128 INSN).toNat := by
              rw [BitVec.toNat_add, show (BitVec.ofNat 128 INSN).toNat = INSN from rfl]
            exact congrArg (fun pc => { m.toCpu with pc := pc }) hsum
          rw [if_neg (by omega), dif_pos hr, hnext]
          exact execute_toCpu _ ⟨op, ⟨_, hr.1⟩, ⟨_, hr.2.1⟩, ⟨_, hr.2.2⟩, _⟩ _ rfl rfl rfl hvalue
        · rw [if_pos (by omega), dif_neg hr]
          rfl
  · rw [if_pos (by omega), dif_neg h]
    rfl

end Machine

/-! ## Whole runs -/

/-- The emulator's first state. -/
def start (image : List UInt8) : Cpu := ⟨loaded image, List.replicate 16 0, 0, false, []⟩

/-- The states a run goes through. -/
inductive Reached (image : List UInt8) : Cpu → Prop
  | start : Reached image (start image)
  | step {cpu cpu' : Cpu} : Reached image cpu → step cpu = .ok (.next cpu') → Reached image cpu'

/-- Every image that fits is loaded into a machine. -/
theorem start_toCpu {image : List UInt8} (h : image.length ≤ RAM) :
    ∃ m : Machine, m.toCpu = start image := by
  have hlength : (loaded image).toArray.size = RAM := by
    rw [List.size_toArray, loaded, List.length_append, List.length_replicate]
    omega
  exact ⟨⟨⟨(loaded image).toArray, hlength⟩, Vector.replicate 16 0, 0, false, []⟩, by
    simp [Machine.toCpu, start, Vector.toList_replicate]⟩

/-- Every state is a machine. -/
theorem Reached.machine {image : List UInt8} {cpu : Cpu} (himage : image.length ≤ RAM)
    (h : Reached image cpu) : ∃ m : Machine, m.toCpu = cpu := by
  induction h with
  | start => exact start_toCpu himage
  | step _ hstep ih =>
      obtain ⟨m, rfl⟩ := ih
      rw [m.step_toCpu] at hstep
      cases hm : m.step with
      | error message =>
          rw [hm] at hstep
          cases hstep
      | ok outcome =>
          rw [hm] at hstep
          cases outcome with
          | next m' => exact ⟨m', Stepped.next.inj (Except.ok.inj hstep)⟩
          | halted status output => cases Except.ok.inj hstep

/-- The loop ends in a status or an `Error`. -/
theorem runFor_cases {image : List UInt8} (himage : image.length ≤ RAM) (steps : Nat) :
    ∀ {cpu : Cpu}, Reached image cpu →
      (∃ status cpu', Reached image cpu' ∧ step cpu' = .ok (.halted status cpu'.output) ∧
        status < 2 ^ 32 ∧ runFor steps cpu = .ok (status, cpu'.output)) ∨
      ∃ message, runFor steps cpu = .error (.error message) := by
  induction steps with
  | zero => exact fun _ => .inr ⟨.stepLimit, rfl⟩
  | succ steps ih =>
      intro cpu hreached
      obtain ⟨m, rfl⟩ := hreached.machine himage
      have hstep := m.step_toCpu
      rw [runFor]
      cases hm : m.step with
      | error message =>
          rw [hm] at hstep
          rw [hstep]
          exact .inr ⟨message, rfl⟩
      | ok outcome =>
          rw [hm] at hstep
          cases outcome with
          | next m' =>
              rw [hstep]
              exact ih (hreached.step hstep)
          | halted status output =>
              obtain rfl := Machine.output_of_halted hm
              refine .inl ⟨status.toNat, m.toCpu, hreached, hstep, status.isLt, ?_⟩
              rw [hstep]
              rfl

/-- **The x128 emulator is closed over arbitrary images.** For every image that fits into the
memory, every state of the run has sixteen 128-bit registers, a 128-bit program counter and
64 KiB of memory, an instruction is fetched from inside the memory, and the step is that of the
machine, whose arithmetic wraps and whose accesses are inside the memory; the run returns a
32-bit status with the output so far, or raises an `Error`. -/
theorem emulator_closed {image : List UInt8} (h : image.length ≤ RAM) :
    (∀ cpu, Reached image cpu →
      cpu.r.length = 16 ∧ (∀ v ∈ cpu.r, v < 2 ^ 128) ∧ cpu.pc < 2 ^ 128 ∧
      cpu.mem.length = 64 * 1024 ∧ (∀ s, step cpu = .ok s → cpu.pc + INSN ≤ RAM) ∧
      ∃ m : Machine, m.toCpu = cpu ∧ step cpu = Machine.lower m.step) ∧
    ((∃ status cpu, Reached image cpu ∧ status < 2 ^ 32 ∧
        step cpu = .ok (.halted status cpu.output) ∧ run image = .ok (status, cpu.output)) ∨
      ∃ message, run image = .error (.error message)) := by
  refine ⟨fun cpu hreached => ?_, ?_⟩
  · obtain ⟨m, rfl⟩ := hreached.machine h
    refine ⟨by simp [Machine.toCpu], fun v hv => ?_, m.pc.isLt, m.mem.length_toList,
      fun s hs => ?_, m, rfl, m.step_toCpu⟩
    · obtain ⟨value, _, rfl⟩ := List.mem_map.mp hv
      exact value.isLt
    · by_contra hout
      have hram : RAM = 65536 := rfl
      have hinsn : INSN = 20 := rfl
      rw [step, if_pos (by omega)] at hs
      cases hs
  · rw [run, if_neg (Nat.not_lt.mpr h)]
    rcases runFor_cases h 100000 .start with ⟨status, cpu, hreached, hstep, hlt, hrun⟩ | hraised
    · exact .inl ⟨status, cpu, hreached, hlt, hstep, hrun⟩
    · exact .inr hraised

/-- `movi r1, 1`, `sub r2, r0, r1`, `out 0, r2`, `halt 7`. -/
def wrapAround : List UInt8 :=
  [1, 1, 0, 0] ++ leBytes 16 1 ++ [4, 2, 0, 1] ++ leBytes 16 0 ++ [14, 0, 2, 0] ++ leBytes 16 0 ++
    [15, 0, 0, 0] ++ leBytes 16 7

/-- The difference wraps around and is still a value of 128 bits; the run halts. -/
theorem emulator_closed_wrapAround :
    (∃ cpu, Reached wrapAround cpu ∧ cpu.r[2]? = some (2 ^ 128 - 1) ∧ (∀ v ∈ cpu.r, v < 2 ^ 128) ∧
      cpu.mem.length = 64 * 1024) ∧
    ∃ status cpu, Reached wrapAround cpu ∧ step cpu = .ok (.halted status cpu.output) ∧
      run wrapAround = .ok (status, cpu.output) ∧ status = 7 ∧ cpu.output = [255] := by
  obtain ⟨hstates, hends⟩ := emulator_closed (show wrapAround.length ≤ RAM by decide)
  have hrun : run wrapAround = .ok (7, [255]) := rfl
  constructor
  · have hreached : Reached wrapAround _ := .step (.step .start rfl) rfl
    obtain ⟨-, hregs, -, hmem, -⟩ := hstates _ hreached
    exact ⟨_, hreached, by decide, hregs, hmem⟩
  · rcases hends with ⟨status, cpu, hreached, -, hstep, hok⟩ | ⟨message, hraised⟩
    · obtain ⟨rfl, houtput⟩ := Prod.mk.inj (Except.ok.inj (hrun.symm.trans hok))
      exact ⟨7, cpu, hreached, hstep, hok, rfl, houtput.symm⟩
    · rw [hrun] at hraised
      cases hraised

end GenericKernel.X128
