import GenericKernel.Sched.RoundRobin

/-!
# Sleeping tasks

A task that called `sleep_ticks` is somewhere between the call and its return:
about to disable interrupts, halted in place, or switched away and `Sleeping`
until another task's wake-up pass finds it due (`Asleep`). It leaves these
states only at a counter that has reached its wake-up time.

The counter itself wraps around after `2 ^ 64` ticks, and then starts below the
wake-up times it has passed (`sleepTicks_wrapped`).
-/

namespace GenericKernel.Sched

open GenericKernel.Lib Scheduler

variable {w w' : World} {a : Action} {i wake : Nat}

/-- Task `i` is inside `sleep_ticks`, with this wake-up time, or its time has come. -/
inductive Asleep (i wake : Nat) (w : World) : Prop
  | due : wake ≤ w.ticks → Asleep i wake w
  | fallingAsleep : w.scheduler.current = i → w.control = .fallingAsleep wake → Asleep i wake w
  | halted : w.scheduler.current = i → w.control = .halted wake → Asleep i wake w
  | away : w.scheduler.current ≠ i → w.scheduler.stateAt i = some (.sleeping wake) →
      Asleep i wake w

/-- The tick does not wrap the counter around. -/
def NoWrap (r : Except Panic World) (a : Action) : Prop :=
  a = .interrupt → ∀ w, r = .ok w → w.ticks + 1 < wordSize

/-- A sleeper that is not due stays asleep, and is not chosen. -/
theorem Moves.sleeping {now : Nat} {s s' : Scheduler} (hmoves : Moves now s s')
    (hother : s.current ≠ i) (hsleeping : s.stateAt i = some (.sleeping wake))
    (hearly : now < wake) : s'.current ≠ i ∧ s'.stateAt i = some (.sleeping wake) := by
  have hwoken : (s.wakeSleepers now).stateAt i = some (.sleeping wake) := by
    rw [stateAt_wakeSleepers, hsleeping]
    exact congrArg some (if_neg (Nat.not_le.mpr hearly))
  cases hmoves with
  | same => exact ⟨hother, hsleeping⟩
  | woken => exact ⟨hother, hwoken⟩
  | spawned name entry =>
      obtain ⟨task, htask, hstate⟩ := stateAt_eq_some.mp hsleeping
      refine ⟨hother, stateAt_eq_some.mpr ⟨task, ?_, hstate⟩⟩
      rw [List.getElem?_append_left (lt_of_stateAt hsleeping)]
      exact htask
  | @handed state saved next hfirst _ _ =>
      have hnot : next ≠ i := by
        rintro rfl
        have hready := hfirst.ready
        rw [hwoken] at hready
        cases hready
      refine ⟨hnot, ?_⟩
      rw [stateAt_handOver, hwoken]
      exact congrArg some ((if_neg (Ne.symm hnot)).trans (if_neg (Ne.symm hother)))

/-- The continuation of a `sleep_ticks` that is about to disable interrupts. -/
theorem asleep_fallAsleep (h : Sound w.scheduler) (hfall : w.fallAsleep wake = .ok w') :
    Asleep w.scheduler.current wake w' := by
  rcases World.fallAsleep_cases h wake with hstay | ⟨next, hfirst, hswitch⟩
  · rw [hstay] at hfall
    obtain rfl := Except.ok.inj hfall
    exact .halted rfl rfl
  · rw [hswitch] at hfall
    obtain rfl := Except.ok.inj hfall
    refine .away hfirst.other ?_
    have hwake : Sound (w.scheduler.wakeSleepers w.ticks) := h.wake
    have hrunning := (hwake.running w.scheduler.current).mpr rfl
    rw [stateAt_handOver, hrunning]
    exact congrArg some ((if_neg (Ne.symm hfirst.other)).trans (if_pos rfl))

/-- One step of any task, or of the timer. -/
theorem asleep_step (hhealthy : Healthy (.ok w)) (hasleep : Asleep i wake w)
    (hclock : NoWrap (.ok w) a) (hact : w.act a = some (.ok w')) : Asleep i wake w' := by
  rcases World.act_effect hhealthy.2 hhealthy.1 hact with ⟨_, _, herror⟩ | ⟨w₁, hw₁, heffect⟩
  · cases herror
  obtain rfl := Except.ok.inj hw₁
  have hticks : w.ticks ≤ w'.ticks := by
    rw [heffect.ticks]
    by_cases htick : a = .interrupt
    · rw [if_pos htick, wrappingAdd_of_lt (hclock htick w rfl)]
      exact Nat.le_succ _
    · rw [if_neg htick]
  by_cases hdue : wake ≤ w.ticks
  · exact .due (hdue.trans hticks)
  have hearly : w.ticks < wake := Nat.not_le.mp hdue
  cases hasleep with
  | due hdue' => exact absurd hdue' hdue
  | fallingAsleep hcurrent hcontrol =>
      cases a with
      | interrupt =>
          obtain rfl := Except.ok.inj (Option.some.inj hact)
          exact .fallingAsleep hcurrent hcontrol
      | proceed =>
          unfold World.act at hact
          rw [hcontrol] at hact
          rw [← hcurrent]
          exact asleep_fallAsleep hhealthy.2 (Option.some.inj hact)
      | _ => simp [World.act, World.whenExecuting, hcontrol] at hact
  | halted hcurrent hcontrol =>
      cases a with
      | interrupt =>
          obtain rfl := Except.ok.inj (Option.some.inj hact)
          exact .halted hcurrent hcontrol
      | proceed =>
          -- the `hlt` loop goes on while the counter is below the wake-up time
          unfold World.act at hact
          rw [hcontrol] at hact
          dsimp only at hact
          rw [if_pos hearly] at hact
          cases hact
      | _ => simp [World.act, World.whenExecuting, hcontrol] at hact
  | away hother hsleeping =>
      obtain ⟨hother', hsleeping'⟩ := heffect.moves.sleeping hother hsleeping hearly
      exact .away hother' hsleeping'

/-- Whole runs, whoever runs in them. -/
theorem asleep_run {after : List Action} : ∀ {w : World}, Healthy (.ok w) → Asleep i wake w →
    Along step NoWrap (.ok w) after → run step (.ok w) after = some (.ok w') →
    Healthy (.ok w') ∧ Asleep i wake w' := by
  intro w hhealthy hasleep hclock hrun
  have hinv : ∀ r a r', (Healthy r ∧ ∀ w, r = .ok w → Asleep i wake w) → NoWrap r a →
      step r a = some r' → Healthy r' ∧ ∀ w, r' = .ok w → Asleep i wake w := by
    rintro r a r' ⟨hr, hasleep⟩ hguard hstep
    refine ⟨healthy_step hr hstep, ?_⟩
    rintro w₂ rfl
    cases r with
    | error e => cases hstep
    | ok w₁ => exact asleep_step hr (hasleep w₁ rfl) hguard hstep
  have hfinal := run_invariant hinv (s := Except.ok w)
    ⟨hhealthy, fun w₁ hw₁ => by rw [← Except.ok.inj hw₁]; exact hasleep⟩ hclock hrun
  exact ⟨hfinal.1, hfinal.2 w' rfl⟩

/-- **Sleeping tasks never wake early.** In every run, a task that called
`sleep_ticks` executes again only when the counter has reached its wake-up time,
unless the counter has wrapped around since. -/
theorem sleepTicks_not_early {ticks t : Nat} {before after : List Action} {w₁ : World}
    (hbefore : run step (World.boot ticks).init before = some (.ok w)) (ht : 0 < t)
    (hcall : step (.ok w) (.sleepTicks t) = some (.ok w₁))
    (hafter : run step (.ok w₁) after = some (.ok w')) (hclock : Along step NoWrap (.ok w₁) after)
    (hreturn : w'.scheduler.current = w.scheduler.current ∧ w'.control = .executing) :
    saturatingAdd w.ticks t ≤ w'.ticks := by
  have hhealthy : Healthy (.ok w) := healthy_run (healthy_init ticks) hbefore
  have hstart : Asleep w.scheduler.current (saturatingAdd w.ticks t) w₁ := by
    have hexecuting : w.control = .executing := by
      by_contra hno
      simp [step, World.act, World.whenExecuting, hno] at hcall
    simp only [step, World.act, World.whenExecuting, if_pos hexecuting, World.sleepTicks,
      if_neg (Nat.ne_of_gt ht), hhealthy.1] at hcall
    obtain rfl := Except.ok.inj (Option.some.inj hcall)
    exact .fallingAsleep rfl rfl
  obtain ⟨hhealthy', hasleep⟩ := asleep_run (healthy_step hhealthy hcall) hstart hclock hafter
  cases hasleep with
  | due hdue => exact hdue
  | fallingAsleep _ hcontrol => exact absurd (hreturn.2.symm.trans hcontrol) (by simp)
  | halted _ hcontrol => exact absurd (hreturn.2.symm.trans hcontrol) (by simp)
  | away hother _ => exact absurd hreturn.1 hother

/-- The boot task sleeps for one tick while the worker and another task run. -/
theorem sleepTicks_not_early_spawned : ∃ w₁ w',
    run step (World.boot 0).init [.spawn "smoke/a" (.function 0)] = some (.ok (withSpawned 0)) ∧
    step (.ok (withSpawned 0)) (.sleepTicks 1) = some (.ok w₁) ∧
    run step (.ok w₁) [.interrupt, .proceed, .yieldNow, .yieldNow] = some (.ok w') ∧
    saturatingAdd 0 1 ≤ w'.ticks := by
  have hbefore : run step (World.boot 0).init [.spawn "smoke/a" (.function 0)] =
      some (.ok (withSpawned 0)) := by decide +kernel
  have hcall : step (.ok (withSpawned 0)) (.sleepTicks 1) =
      some (.ok { withSpawned 0 with control := .fallingAsleep 1 }) := by decide +kernel
  have hafter : run step (.ok { withSpawned 0 with control := .fallingAsleep 1 })
      [.interrupt, .proceed, .yieldNow, .yieldNow] = some (.ok
        ⟨⟨[⟨0, "boot", .running, .inSleep 1, none⟩,
            ⟨1, "kworker/0", .ready, .inYield, some .housekeepingTask⟩,
            ⟨2, "smoke/a", .ready, .inYield, some (.function 0)⟩], 0, 3, 3⟩,
          true, false, 1, .executing⟩) := by decide +kernel
  have hclock : Along step NoWrap (.ok { withSpawned 0 with control := .fallingAsleep 1 })
      [.interrupt, .proceed, .yieldNow, .yieldNow] := by
    refine ⟨fun _ w hw => ?_, fun r _ => (along_true r _).mono fun s a ha _ htick => ?_⟩
    · obtain rfl := Except.ok.inj hw
      rw [wordSize]
      decide
    · rw [htick] at ha
      simp at ha
  exact ⟨_, _, hbefore, hcall, hafter,
    sleepTicks_not_early hbefore Nat.one_pos hcall hafter hclock ⟨rfl, rfl⟩⟩

/-- The worker's yield finds the boot task due at the last counter value; when it
gets the processor the counter is zero. -/
theorem sleepTicks_wrapped : ∃ w₁ w',
    run step (World.boot (wordSize - 2)).init [.spawn "smoke/a" (.function 0)] =
      some (.ok (withSpawned (wordSize - 2))) ∧
    step (.ok (withSpawned (wordSize - 2))) (.sleepTicks 1) = some (.ok w₁) ∧
    run step (.ok w₁) [.proceed, .interrupt, .yieldNow, .interrupt, .yieldNow] = some (.ok w') ∧
    w'.scheduler.current = (withSpawned (wordSize - 2)).scheduler.current ∧
    w'.control = .executing ∧ w'.ticks < saturatingAdd (wordSize - 2) 1 :=
  ⟨{ withSpawned (wordSize - 2) with control := .fallingAsleep (wordSize - 1) },
    ⟨⟨[⟨0, "boot", .running, .inSleep (wordSize - 1), none⟩,
        ⟨1, "kworker/0", .ready, .inYield, some .housekeepingTask⟩,
        ⟨2, "smoke/a", .ready, .inYield, some (.function 0)⟩], 0, 3, 3⟩,
      true, true, 0, .executing⟩, by decide +kernel, by decide +kernel, by decide +kernel,
    rfl, rfl, by decide +kernel⟩

end GenericKernel.Sched
