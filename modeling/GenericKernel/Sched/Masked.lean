import GenericKernel.Lib.Ring
import GenericKernel.Sched.Sleeping

/-!
# Interrupts after a process has exited

The processor below the scheduler: its flags register and the mode it runs in. The functions of
`task.rs` read the interrupt flag, clear it and set it again; `generic_enter_user`, the interrupt
gates and `.Lgeneric_user_exit` (`arch/user.rs`) change it as well.

* `critical_eq`, `withoutInterrupts_eq` — the kernel's functions leave the flags as they find them.
* `Effect`, `step_effect` — what an event does to the flag, to the scheduler and to the scancodes.
* `clock_stops_at_exit` — from the exit of a process on, until the next one is entered.
-/

namespace GenericKernel.Sched

open GenericKernel.Lib

/-- What the kernel's code works on: the scheduler with the clock, and `SCANCODES`. -/
structure Memory where
  world : World
  scancodes : Ring UInt8 256

/-- CPL 0 and CPL 3. -/
inductive Mode
  | kernel
  | user
  deriving DecidableEq

structure Processor where
  memory : Memory
  rflags : UInt64
  mode : Mode

/-- The interrupts that change the memory; the keyboard may have no data. -/
inductive Interrupt
  | timer
  | keyboard (data : Option UInt8)
  deriving DecidableEq

/-- What can happen next. -/
inductive Event
  /-- A call of the current task. -/
  | call (action : Action)
  /-- `SCANCODES.lock().pop()` in `poll_key`, or `clear()` in `drain`. -/
  | scancodes (all : Bool)
  | interrupt (source : Interrupt)
  /-- `generic_enter_user`. -/
  | enter
  /-- An instruction of the process, with the flags that it computes. -/
  | instruction (flags : UInt64)
  /-- A system call that returns; `SYS_INPUT_POLL` takes some scancodes. -/
  | syscall (taken : Nat)
  /-- `SYS_EXIT`. -/
  | exit
  deriving DecidableEq

def INTERRUPT_FLAG : UInt64 := 0x200

namespace Processor

/-! ## The flag -/

/-- `rflags::read().contains(RFlags::INTERRUPT_FLAG)`. -/
def areEnabled (self : Processor) : Bool := self.rflags &&& INTERRUPT_FLAG == INTERRUPT_FLAG

/-- `cli`. -/
def disable (self : Processor) : Processor :=
  { self with rflags := self.rflags &&& ~~~INTERRUPT_FLAG }

/-- `sti`. -/
def enable (self : Processor) : Processor :=
  { self with rflags := self.rflags ||| INTERRUPT_FLAG }

/-- Code that touches no flag; `none` if it is not possible or panics. -/
def plain (self : Processor) (f : Memory → Option Memory) : Option Processor :=
  (f self.memory).map fun memory => { self with memory := memory }

def withoutInterrupts (self : Processor) (f : Memory → Option Memory) : Option Processor := do
  let saved := self.areEnabled
  let self := if saved then self.disable else self
  let self ← self.plain f
  return if saved then self.enable else self

/-- The body of `yield_now`, `sleep_ticks` and `exit_current`. `generic_context_switch`, behind the
`enable`, exchanges the stacks and six other registers: it is a part of `f`. -/
def critical (self : Processor) (f : Memory → Option Memory) : Option Processor := do
  let interruptsEnabled := self.areEnabled
  let self := self.disable
  let self ← self.plain f
  return if interruptsEnabled then self.enable else self

/-! ## Events -/

def act (action : Action) (memory : Memory) : Option Memory :=
  match memory.world.act action with
  | some (.ok world) => some { memory with world := world }
  | _ => none

/-- A call of the current task, after `task::init`. -/
def call (self : Processor) (action : Action) : Option Processor :=
  match action with
  | .spawn _ _ => self.withoutInterrupts (act action)
  | .yieldNow | .exitCurrent => self.critical (act action)
  | .checkpoint =>
      if self.memory.world.rescheduleRequested then self.critical (act action)
      else self.plain (act action)
  -- with ticks to wait, only the wake-up time is computed before `are_enabled`
  | .sleepTicks ticks => if ticks = 0 then self.critical (act action) else self.plain (act action)
  | .proceed =>
      match self.memory.world.control with
      | .fallingAsleep _ => self.critical (act action)
      | _ => self.plain (act action)
  | .interrupt => none

/-- Through an interrupt gate: the processor pushes the flags and masks interrupts. -/
def gate (self : Processor) : Processor := { self.disable with mode := .kernel }

/-- `iretq`, to what was interrupted. -/
def iretq (self interrupted : Processor) : Processor :=
  { self with rflags := interrupted.rflags, mode := interrupted.mode }

def handle (self : Processor) : Interrupt → Processor
  | .timer => { self with memory.world := self.memory.world.interrupt }
  | .keyboard none => self
  | .keyboard (some code) => { self with memory.scancodes := self.memory.scancodes.push code }

/-- `pushfq`, `pop rax`, `or rax, 0x200`, `push rax`, `iretq`. -/
def enterUser (self : Processor) : Processor :=
  { self with rflags := self.rflags ||| 0x200, mode := .user }

/-- One event; `none` if it is not possible, or if the kernel panics. -/
def step (self : Processor) : Event → Option Processor
  | .call action => if self.mode = .kernel then self.call action else none
  | .scancodes all =>
      if self.mode = .kernel then self.withoutInterrupts fun memory => some { memory with
        scancodes := if all then memory.scancodes.clear else memory.scancodes.pop.2 }
      else none
  | .interrupt source =>
      if self.areEnabled then some ((self.gate.handle source).iretq self) else none
  | .enter =>
      if self.mode = .kernel ∧ self.memory.world.control = .executing then some self.enterUser
      else none
  -- at CPL 3 and IOPL 0 no instruction changes the interrupt flag
  | .instruction flags =>
      if self.mode = .user then some { self with
        rflags := (flags &&& ~~~INTERRUPT_FLAG) ||| (self.rflags &&& INTERRUPT_FLAG) }
      else none
  | .syscall taken =>
      if self.mode = .user then
        let scancodes := (fun ring : Ring UInt8 256 => ring.pop.2)^[taken] self.memory.scancodes
        some ({ self.gate with memory.scancodes := scancodes }.iretq self)
      else none
  -- `.Lgeneric_user_exit` goes back to the caller of `generic_enter_user` by `ret`
  | .exit => if self.mode = .user then some self.gate else none

/-- After `platform::init` and `task::init`. -/
def Started (ticks : Nat) (self : Processor) : Prop :=
  (World.boot ticks).init = .ok self.memory.world ∧ self.mode = .kernel

/-! ## The kernel's functions keep the flags -/

variable {p q : Processor} {e : Event} {f : Memory → Option Memory}

theorem areEnabled_disable (p : Processor) : p.disable.areEnabled = false := by
  have hclear : p.rflags &&& ~~~INTERRUPT_FLAG &&& INTERRUPT_FLAG = 0 := by
    rw [UInt64.and_assoc, UInt64.not_and_self, UInt64.and_zero]
  show (p.rflags &&& ~~~INTERRUPT_FLAG &&& INTERRUPT_FLAG == INTERRUPT_FLAG) = false
  rw [hclear]
  decide

theorem areEnabled_enterUser (p : Processor) : p.enterUser.areEnabled = true :=
  beq_iff_eq.mpr (or_and_mask p.rflags INTERRUPT_FLAG)

theorem disable_of_masked (h : p.areEnabled = false) : p.disable = p := by
  have hclear : p.rflags &&& INTERRUPT_FLAG = 0 :=
    (bit_cases p.rflags (show INTERRUPT_FLAG.toNat = 2 ^ 9 by decide)).resolve_right
      (beq_eq_false_iff_ne.mp h)
  have hjoin := rest_or_field p.rflags INTERRUPT_FLAG
  rw [hclear, UInt64.or_zero] at hjoin
  unfold disable
  rw [hjoin]

theorem enable_disable (h : p.areEnabled = true) : p.disable.enable = p := by
  have hjoin := rest_or_field p.rflags INTERRUPT_FLAG
  rw [beq_iff_eq.mp h] at hjoin
  unfold enable disable
  dsimp only
  rw [hjoin]

theorem critical_eq (p : Processor) (f : Memory → Option Memory) : p.critical f = p.plain f := by
  unfold critical
  cases henabled : p.areEnabled with
  | false =>
    rw [disable_of_masked henabled]
    dsimp only
    cases p.plain f <;> rfl
  | true =>
    unfold plain
    cases hf : f p.memory with
    | none => simp [disable, hf]
    | some memory =>
      have hback := @enable_disable { p with memory := memory } henabled
      simpa [disable, enable, hf] using hback

theorem withoutInterrupts_eq (p : Processor) (f : Memory → Option Memory) :
    p.withoutInterrupts f = p.plain f := by
  rw [← critical_eq]
  unfold withoutInterrupts critical
  cases henabled : p.areEnabled with
  | false => rw [disable_of_masked henabled]; rfl
  | true => rfl

theorem call_eq {a : Action} (ha : a ≠ .interrupt) (p : Processor) : p.call a = p.plain (act a) := by
  cases a with
  | interrupt => exact absurd rfl ha
  | spawn name entry => exact withoutInterrupts_eq p _
  | yieldNow => exact critical_eq p _
  | exitCurrent => exact critical_eq p _
  | checkpoint => simp only [call, critical_eq, ite_self]
  | sleepTicks ticks => simp only [call, critical_eq, ite_self]
  | proceed =>
    simp only [call, critical_eq]
    cases p.memory.world.control <;> rfl

theorem plain_eq_some (h : p.plain f = some q) :
    ∃ memory, f p.memory = some memory ∧ q = { p with memory := memory } := by
  obtain ⟨memory, hf, hq⟩ := Option.map_eq_some_iff.mp h
  exact ⟨memory, hf, hq.symm⟩

/-! ## What an event does -/

structure Effect (p : Processor) (e : Event) (q : Processor) : Prop where
  world : q.memory.world = p.memory.world ∨
    ∃ a, p.memory.world.act a = some (.ok q.memory.world) ∧ (a = .interrupt → p.areEnabled = true)
  scancodes : p.areEnabled = false → q.memory.scancodes.toList <:+ p.memory.scancodes.toList
  kernel : p.mode = .kernel → e ≠ .enter → q.mode = .kernel ∧ q.areEnabled = p.areEnabled
  user : (p.mode = .user → p.areEnabled = true) → q.mode = .user → q.areEnabled = true

/-- An event that returns to the flags and the mode it began with. -/
theorem Effect.of_memory {memory : Memory}
    (hworld : memory.world = p.memory.world ∨ ∃ a, p.memory.world.act a = some (.ok memory.world) ∧
      (a = .interrupt → p.areEnabled = true))
    (hscancodes : p.areEnabled = false → memory.scancodes.toList <:+ p.memory.scancodes.toList) :
    Effect p e { p with memory := memory } :=
  ⟨hworld, hscancodes, fun hmode _ => ⟨hmode, rfl⟩, fun huser => huser⟩

theorem pop_suffix (ring : Ring UInt8 256) : ring.pop.2.toList <:+ ring.toList := by
  cases hcodes : ring.toList with
  | nil => rw [Ring.pop_of_nil _ hcodes, hcodes]
  | cons code rest =>
    obtain ⟨ring', hpop, hrest⟩ := Ring.pop_of_cons _ hcodes
    rw [hpop, hrest]
    exact List.suffix_cons code rest

theorem pops_suffix (taken : Nat) : ∀ ring : Ring UInt8 256,
    ((fun ring : Ring UInt8 256 => ring.pop.2)^[taken] ring).toList <:+ ring.toList := by
  induction taken with
  | zero => exact fun ring => List.suffix_refl _
  | succ taken ih => exact fun ring => (ih _).trans (pop_suffix ring)

theorem step_effect (hstep : p.step e = some q) : Effect p e q := by
  cases e with
  | call a =>
    obtain ⟨_, hcall⟩ := Option.ite_none_right_eq_some.mp hstep
    by_cases ha : a = .interrupt
    · rw [ha] at hcall
      cases hcall
    rw [call_eq ha] at hcall
    obtain ⟨memory, hact, rfl⟩ := plain_eq_some hcall
    unfold act at hact
    split at hact
    · rename_i world hworld
      obtain rfl := Option.some.inj hact
      exact .of_memory (.inr ⟨a, hworld, fun h => absurd h ha⟩) fun _ => List.suffix_refl _
    · cases hact
  | scancodes all =>
    obtain ⟨_, htaken⟩ := Option.ite_none_right_eq_some.mp hstep
    rw [withoutInterrupts_eq] at htaken
    obtain ⟨memory, hmemory, rfl⟩ := plain_eq_some htaken
    obtain rfl := Option.some.inj hmemory
    refine .of_memory (.inl rfl) fun _ => ?_
    cases all with
    | false => exact pop_suffix _
    | true =>
      show (Ring.empty _ _).toList <:+ _
      rw [Ring.toList_empty]
      exact List.nil_suffix
  | interrupt source =>
    obtain ⟨henabled, hq⟩ := Option.ite_none_right_eq_some.mp hstep
    obtain rfl := Option.some.inj hq
    have hopen : p.areEnabled ≠ false := by rw [henabled]; decide
    cases source with
    | timer => exact .of_memory (.inr ⟨.interrupt, rfl, fun _ => henabled⟩) (absurd · hopen)
    | keyboard data =>
      cases data with
      | none => exact .of_memory (.inl rfl) (absurd · hopen)
      | some code => exact .of_memory (.inl rfl) (absurd · hopen)
  | enter =>
    obtain ⟨_, hq⟩ := Option.ite_none_right_eq_some.mp hstep
    obtain rfl := Option.some.inj hq
    exact ⟨.inl rfl, fun _ => List.suffix_refl _, fun _ hne => absurd rfl hne,
      fun _ _ => areEnabled_enterUser p⟩
  | instruction flags =>
    obtain ⟨huser, hq⟩ := Option.ite_none_right_eq_some.mp hstep
    obtain rfl := Option.some.inj hq
    refine ⟨.inl rfl, fun _ => List.suffix_refl _, fun hkernel => ?_, fun henabled _ => ?_⟩
    · rw [huser] at hkernel
      cases hkernel
    · have hfield : p.rflags &&& INTERRUPT_FLAG &&& ~~~INTERRUPT_FLAG = 0 := by
        rw [UInt64.and_assoc, UInt64.and_not_self, UInt64.and_zero]
      exact beq_iff_eq.mpr ((writeField_and_mask hfield).trans (beq_iff_eq.mp (henabled huser)))
  | syscall taken =>
    obtain ⟨_, hq⟩ := Option.ite_none_right_eq_some.mp hstep
    obtain rfl := Option.some.inj hq
    exact .of_memory (.inl rfl) fun _ => pops_suffix taken _
  | exit =>
    obtain ⟨huser, hq⟩ := Option.ite_none_right_eq_some.mp hstep
    obtain rfl := Option.some.inj hq
    refine ⟨.inl rfl, fun _ => List.suffix_refl _, fun hkernel => ?_, fun _ hmode => ?_⟩
    · rw [huser] at hkernel
      cases hkernel
    · cases hmode

/-! ## Runs -/

/-- The scheduler's invariant, and a process can be interrupted at any time. -/
structure Sane (p : Processor) : Prop where
  healthy : Healthy (.ok p.memory.world)
  interruptible : p.mode = .user → p.areEnabled = true

theorem Sane.step (h : Sane p) (hstep : p.step e = some q) : Sane q := by
  have heffect := step_effect hstep
  refine ⟨?_, heffect.user h.interruptible⟩
  rcases heffect.world with hworld | ⟨a, hact, _⟩
  · rw [hworld]
    exact h.healthy
  · exact healthy_step h.healthy hact

theorem Started.sane {ticks : Nat} (h : Started ticks p) : Sane p := by
  refine ⟨?_, fun huser => ?_⟩
  · rw [← h.1]
    exact healthy_init ticks
  · rw [h.2] at huser
    cases huser

/-- What holds from the moment `p` on, while the kernel runs with interrupts masked. -/
structure Still (p q : Processor) : Prop where
  sane : Sane q
  kernel : q.mode = .kernel
  masked : q.areEnabled = false
  ticks : q.memory.world.ticks = p.memory.world.ticks
  scancodes : q.memory.scancodes.toList <:+ p.memory.scancodes.toList
  asleep : ∀ i wake, Asleep i wake p.memory.world → Asleep i wake q.memory.world

theorem Still.step {r : Processor} (h : Still p q) (hne : e ≠ .enter) (hstep : q.step e = some r) :
    Still p r := by
  have heffect := step_effect hstep
  obtain ⟨hkernel, hflag⟩ := heffect.kernel h.kernel hne
  -- the world is the same, or it made a step that is no tick
  have hworld : r.memory.world = q.memory.world ∨
      ∃ a, a ≠ .interrupt ∧ q.memory.world.act a = some (.ok r.memory.world) := by
    refine heffect.world.imp_right ?_
    rintro ⟨a, hact, htick⟩
    refine ⟨a, fun ha => ?_, hact⟩
    have henabled := htick ha
    rw [h.masked] at henabled
    cases henabled
  refine ⟨h.sane.step hstep, hkernel, hflag.trans h.masked, ?_,
    (heffect.scancodes h.masked).trans h.scancodes, fun i wake hasleep => ?_⟩
  · rcases hworld with hworld | ⟨a, ha, hact⟩
    · rw [hworld, h.ticks]
    · rcases World.act_effect h.sane.healthy.2 h.sane.healthy.1 hact with
        ⟨_, _, hpanic⟩ | ⟨w, hw, hmoved⟩
      · cases hpanic
      · rw [Except.ok.inj hw, hmoved.ticks, if_neg ha, h.ticks]
  · rcases hworld with hworld | ⟨a, ha, hact⟩
    · rw [hworld]
      exact h.asleep i wake hasleep
    · exact asleep_step h.sane.healthy (h.asleep i wake hasleep) (fun htick => absurd htick ha) hact

/-- After boot, with interrupts enabled. -/
def booted : Processor :=
  ⟨⟨World.started 0, Ring.empty (Vector.replicate 256 0) (Nat.succ_pos 255)⟩, 0x202, .kernel⟩

/-- The worker sleeps, and a process is interrupted twice. -/
def workerSleeps : List Event :=
  [.call .yieldNow, .call (.sleepTicks 100), .call .proceed, .enter, .interrupt .timer, .syscall 1,
    .interrupt (.keyboard (some 30))]

/-- **The clock stops when a process exits.** The process runs with interrupts enabled. From its exit
on, in every run in which no further process is entered, they are masked: the tick counter keeps its
value, no scancode is received, and a task that is in `sleep_ticks` until a later tick never executes
again. -/
theorem clock_stops_at_exit {ticks : Nat} {p₀ p₁ : Processor} {before after : List Event}
    (hstart : Started ticks p₀) (hbefore : run step p₀ before = some p₁)
    (hexit : p₁.step .exit = some p) (hafter : run step p after = some q) (hno : .enter ∉ after) :
    p₁.areEnabled = true ∧ q.areEnabled = false ∧
      q.memory.world.ticks = p.memory.world.ticks ∧
      q.memory.scancodes.toList <:+ p.memory.scancodes.toList ∧
      ∀ i wake, Asleep i wake p.memory.world → p.memory.world.ticks < wake →
        ¬ (q.memory.world.scheduler.current = i ∧ q.memory.world.control = .executing) := by
  have hsane : Sane p₁ := run_invariant (fun _ _ _ h (_ : True) hstep => Sane.step h hstep)
    hstart.sane (along_true _ _) hbefore
  obtain ⟨huser, hp⟩ := Option.ite_none_right_eq_some.mp hexit
  obtain rfl := Option.some.inj hp
  have hstill : Still p₁.gate q := run_invariant
    (fun _ _ _ h (hne : _ ≠ Event.enter) hstep => Still.step h hne hstep)
    ⟨hsane.step hexit, rfl, areEnabled_disable p₁, rfl, List.suffix_refl _, fun _ _ h => h⟩
    (Along.mono (fun _ e he _ => ne_of_mem_of_not_mem he hno) (along_true _ after)) hafter
  refine ⟨hsane.interruptible huser, hstill.masked, hstill.ticks, hstill.scancodes, ?_⟩
  rintro i wake hasleep hlater ⟨hcurrent, hcontrol⟩
  cases hstill.asleep i wake hasleep with
  | due hdue =>
      rw [hstill.ticks] at hdue
      omega
  | fallingAsleep _ hfalling =>
      rw [hcontrol] at hfalling
      cases hfalling
  | halted _ hhalted =>
      rw [hcontrol] at hhalted
      cases hhalted
  | away hother _ => exact hother hcurrent

/-- That process exits, and the boot task yields: the worker is not woken. -/
theorem clock_stops_at_exit_worker : ∃ p₁ p q,
    run step booted workerSleeps = some p₁ ∧ p₁.step .exit = some p ∧
      run step p [.call .yieldNow, .scancodes false] = some q ∧
      p.memory.world.scheduler.stateAt 1 = some (.sleeping 100) ∧
      p₁.areEnabled = true ∧ q.areEnabled = false ∧ q.memory.world.ticks = p.memory.world.ticks ∧
      ¬ (q.memory.world.scheduler.current = 1 ∧ q.memory.world.control = .executing) := by
  have hsome : ((run step booted workerSleeps).bind fun p₁ => (p₁.step .exit).bind
      fun p => run step p [.call .yieldNow, .scancodes false]).isSome = true := by decide +kernel
  obtain ⟨q, hq⟩ := Option.isSome_iff_exists.mp hsome
  obtain ⟨p₁, hbefore, hq⟩ := Option.bind_eq_some_iff.mp hq
  obtain ⟨p, hexit, hafter⟩ := Option.bind_eq_some_iff.mp hq
  have hsleeps : ((run step booted workerSleeps).bind fun p₁ => (p₁.step .exit).map fun p =>
      let world := p.memory.world
      (world.scheduler.current, world.scheduler.stateAt 1, world.ticks)) =
      some (0, some (.sleeping 100), 1) := by decide +kernel
  rw [hbefore, Option.bind_some, hexit] at hsleeps
  obtain ⟨hcurrent, hstate, hticks⟩ : p.memory.world.scheduler.current = 0 ∧
      p.memory.world.scheduler.stateAt 1 = some (.sleeping 100) ∧ p.memory.world.ticks = 1 := by
    simpa using hsleeps
  obtain ⟨henabled, hmasked, hsame, _, hnever⟩ :=
    clock_stops_at_exit ⟨World.init_boot 0, rfl⟩ hbefore hexit hafter (by decide)
  exact ⟨p₁, p, q, hbefore, hexit, hafter, hstate, henabled, hmasked, hsame,
    hnever 1 100 (.away (by rw [hcurrent]; decide) hstate) (by rw [hticks]; decide)⟩

end Processor

end GenericKernel.Sched
