import GenericKernel.Lib.Transition
import GenericKernel.Lib.Word

/-!
# The scheduler (`kernel/src/task.rs`)

Kernel tasks share one processor and give it up themselves: `yield_now`,
`sleep_ticks` and `exit_current` pick the next ready task round robin and switch
to its stack. The timer interrupt (`arch/timer.rs`) counts ticks and asks for a
reschedule; it never switches.

* a `World` is the static state of the two files, with what the processor is
  executing; a function that may panic returns an `Except`;
* what runs with interrupts disabled, up to the stack switch, is one step; the
  timer may tick between any two steps;
* a saved stack pointer is a `Stack`, the place where the task continues;
* `sleep_ticks` reads the clock before it disables interrupts, and halts in place
  when nothing else is ready: `Control` says how far the current task is.
-/

namespace GenericKernel.Sched

open GenericKernel.Lib

def QUANTUM_TICKS : Nat := 5

/-- A function pointer of type `fn()`. -/
inductive TaskEntry
  | housekeepingTask
  | function (address : Nat)
  deriving DecidableEq

inductive InternalState
  | running
  | ready
  | sleeping (wake : Nat)
  | exited
  deriving DecidableEq

/-- Where a task continues when its stack is switched to. -/
inductive Stack
  /-- The boot task before it is first switched away: `rsp: 0`. -/
  | unset
  /-- A stack from `prepare_stack`: the switch returns into `task_trampoline`. -/
  | trampoline
  | inYield
  | inSleep (wake : Nat)
  | inExit
  deriving DecidableEq

structure Task where
  id : Nat
  name : String
  state : InternalState
  rsp : Stack
  entry : Option TaskEntry
  deriving DecidableEq

structure Scheduler where
  tasks : List Task
  current : Nat
  nextId : Nat
  contextSwitches : Nat
  deriving DecidableEq

inductive Panic
  /-- "scheduler initialized twice" -/
  | initializedTwice
  /-- "failed to spawn kernel worker" -/
  | workerNotSpawned
  | indexOutOfBounds
  /-- "kernel task exited with no runnable successor" -/
  | noRunnableSuccessor
  /-- "kernel task missing entry point" -/
  | missingEntry
  /-- "exited kernel task resumed" -/
  | exitedTaskResumed
  /-- A switch to a stack that was never set up. -/
  | wildStack
  deriving DecidableEq

namespace Scheduler

def new : Scheduler := ⟨[], 0, 1, 0⟩

/-- `tasks[index].state`. -/
def stateAt (self : Scheduler) (index : Nat) : Option InternalState :=
  (self.tasks[index]?).map Task.state

/-- `tasks[index].state = state`. -/
def setState (self : Scheduler) (index : Nat) (state : InternalState) : Scheduler :=
  { self with tasks := self.tasks.modify index fun task => { task with state := state } }

def wakeSleepers (self : Scheduler) (now : Nat) : Scheduler :=
  { self with tasks := self.tasks.map fun task =>
      match task.state with
      | .sleeping wake => if wake ≤ now then { task with state := .ready } else task
      | _ => task }

def nextReady (self : Scheduler) : Option Nat :=
  let len := self.tasks.length
  if len ≤ 1 then none
  else (List.range' 1 (len - 1)).findSome? fun offset =>
    let index := (self.current + offset) % len
    if self.stateAt index = some .ready then some index else none

/-- The end of the three switching functions: `next` becomes the running task and
the old one is left on the stack `saved`. -/
def switchTo (self : Scheduler) (next : Nat) (saved : Stack) : Scheduler :=
  { self.setState next .running with
    tasks := (self.setState next .running).tasks.modify self.current
      fun task => { task with rsp := saved }
    current := next
    contextSwitches := saturatingAdd self.contextSwitches 1 }

end Scheduler

/-- What the processor executes on behalf of the current task. -/
inductive Control
  /-- Code of the task itself. -/
  | executing
  /-- `sleep_ticks`, after it computed its wake-up time. -/
  | fallingAsleep (wake : Nat)
  /-- The `hlt` loop of `sleep_ticks`. -/
  | halted (wake : Nat)
  deriving DecidableEq

structure World where
  scheduler : Scheduler
  initialized : Bool
  rescheduleRequested : Bool
  ticks : Nat
  control : Control
  deriving DecidableEq

namespace World

/-- The statics before `init`, and a clock that is already running. -/
def boot (ticks : Nat) : World := ⟨Scheduler.new, false, false, ticks, .executing⟩

/-- Continue where the stack of the task that is now current was left. -/
def resume (self : World) (rsp : Stack) : Except Panic World :=
  match rsp with
  | .unset => .error .wildStack
  | .trampoline =>
      -- `task_trampoline` looks its own entry point up
      match self.scheduler.tasks[self.scheduler.current]? with
      | none => .error .indexOutOfBounds
      | some task =>
          if task.entry = none then .error .missingEntry
          else .ok { self with control := .executing }
  | .inYield => .ok { self with control := .executing }
  | .inSleep _ => .ok { self with control := .executing }
  | .inExit => .error .exitedTaskResumed

/-- `generic_context_switch` from the current task to `next`. -/
def switch (self : World) (next : Nat) (saved : Stack) : Except Panic World :=
  match self.scheduler.tasks[next]? with
  | none => .error .indexOutOfBounds
  | some task => { self with scheduler := self.scheduler.switchTo next saved }.resume task.rsp

/-- `spawn`, with the id it returns. -/
def spawn (self : World) (name : String) (entry : TaskEntry) : World × Option Nat :=
  if self.initialized = false then (self, none)
  else
    let id := self.scheduler.nextId
    match checkedAdd id 1 with
    | none => (self, none)
    | some nextId =>
        ({ self with scheduler := { self.scheduler with
            nextId := nextId
            tasks := self.scheduler.tasks ++ [⟨id, name, .ready, .trampoline, some entry⟩] } },
          some id)

def init (self : World) : Except Panic World :=
  if self.scheduler.tasks ≠ [] then .error .initializedTwice
  else
    let booted : World := { self with
      scheduler := ⟨[⟨0, "boot", .running, .unset, none⟩], 0, 1, 0⟩
      initialized := true }
    match booted.spawn "kworker/0" .housekeepingTask with
    | (_, none) => .error .workerNotSpawned
    | (world, some _) => .ok world

def yieldNow (self : World) : Except Panic World :=
  if self.initialized = false then .ok self
  else
    let scheduler := self.scheduler.wakeSleepers self.ticks
    match scheduler.stateAt scheduler.current with
    | none => .error .indexOutOfBounds
    | some state =>
        let scheduler :=
          if state = .running then scheduler.setState scheduler.current .ready else scheduler
        match scheduler.nextReady with
        | none => .ok { self with scheduler := scheduler.setState scheduler.current .running }
        | some next => { self with scheduler := scheduler }.switch next .inYield

def checkpoint (self : World) : Except Panic World :=
  if self.rescheduleRequested then { self with rescheduleRequested := false }.yieldNow
  else .ok self

/-- `sleep_ticks` up to the point where it disables interrupts. -/
def sleepTicks (self : World) (ticks : Nat) : Except Panic World :=
  if ticks = 0 then self.yieldNow
  else if self.initialized = false then
    -- `wait_ticks`
    .ok { self with control := .halted (saturatingAdd self.ticks ticks) }
  else .ok { self with control := .fallingAsleep (saturatingAdd self.ticks ticks) }

/-- The rest of `sleep_ticks`. -/
def fallAsleep (self : World) (wake : Nat) : Except Panic World :=
  let scheduler := self.scheduler.wakeSleepers self.ticks
  match scheduler.stateAt scheduler.current with
  | none => .error .indexOutOfBounds
  | some _ =>
      let scheduler := scheduler.setState scheduler.current (.sleeping wake)
      match scheduler.nextReady with
      | none => .ok { self with
          scheduler := scheduler.setState scheduler.current .running
          control := .halted wake }
      | some next => { self with scheduler := scheduler }.switch next (.inSleep wake)

def exitCurrent (self : World) : Except Panic World :=
  let scheduler := self.scheduler.wakeSleepers self.ticks
  match scheduler.stateAt scheduler.current with
  | none => .error .indexOutOfBounds
  | some _ =>
      let scheduler := scheduler.setState scheduler.current .exited
      match scheduler.nextReady with
      | none => .error .noRunnableSuccessor
      | some next => { self with scheduler := scheduler }.switch next .inExit

/-- The timer interrupt, with `on_timer_tick`. -/
def interrupt (self : World) : World :=
  { self with
    ticks := wrappingAdd self.ticks 1
    rescheduleRequested := self.rescheduleRequested ||
      self.initialized && saturatingAdd self.ticks 1 % QUANTUM_TICKS == 0 }

end World

/-- What can happen next: a call by the current task, the continuation of its
`sleep_ticks`, or a timer interrupt. -/
inductive Action
  | spawn (name : String) (entry : TaskEntry)
  | yieldNow
  | checkpoint
  | sleepTicks (ticks : Nat)
  | exitCurrent
  | proceed
  | interrupt
  deriving DecidableEq

/-- A task inside `sleep_ticks` calls nothing. -/
def World.whenExecuting (self : World) (result : Except Panic World) :
    Option (Except Panic World) :=
  if self.control = .executing then some result else none

/-- One step; `none` if the action is not possible. -/
def World.act (self : World) : Action → Option (Except Panic World)
  | .spawn name entry => self.whenExecuting (.ok (self.spawn name entry).1)
  | .yieldNow => self.whenExecuting self.yieldNow
  | .checkpoint => self.whenExecuting self.checkpoint
  | .sleepTicks ticks => self.whenExecuting (self.sleepTicks ticks)
  | .exitCurrent => self.whenExecuting self.exitCurrent
  | .proceed =>
      match self.control with
      | .executing => none
      | .fallingAsleep wake => some (self.fallAsleep wake)
      | .halted wake =>
          if self.ticks < wake then none else some (.ok { self with control := .executing })
  | .interrupt => some (.ok self.interrupt)

/-- A panic ends the run. -/
def step : Except Panic World → Action → Option (Except Panic World)
  | .error _, _ => none
  | .ok world, action => world.act action

end GenericKernel.Sched
