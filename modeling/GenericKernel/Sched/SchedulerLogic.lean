import GenericKernel.Sched.Scheduler

/-!
# One running task at a time

`Sound` is the scheduler's invariant between two steps: the current task is the
only running one, ids are unique, and every other task that has not exited is on
a stack that can be switched to.

* `yield_now`, `sleep_ticks` and `exit_current` differ only in what they make of
  the old task and in what they do when nothing is ready; all three leave
  `handOver` of a ready task (`switch_sound`) or the scheduler with its sleepers
  woken;
* `act_cases` says what every step does, and that the only panic is an exit
  without successor;
* `run_scheduled` and `run_ok_iff_successors` follow by induction over the run.
-/

namespace GenericKernel.Sched

open GenericKernel.Lib

/-! ## Reading and writing task states -/

variable {state : InternalState} {len start : Nat} {a : Action} {r : Except Panic World}

namespace Scheduler

variable {self : Scheduler} {i next : Nat}

theorem stateAt_eq_some :
    self.stateAt i = some state ↔ ∃ task, self.tasks[i]? = some task ∧ task.state = state :=
  Option.map_eq_some_iff

theorem lt_of_stateAt (h : self.stateAt i = some state) : i < self.tasks.length := by
  obtain ⟨task, htask, _⟩ := stateAt_eq_some.mp h
  exact (List.getElem?_eq_some_iff.mp htask).1

/-- The state of a sleeper whose time has come. -/
def wakeState (now : Nat) : InternalState → InternalState
  | .sleeping wake => if wake ≤ now then .ready else .sleeping wake
  | state => state

theorem getElem?_wakeSleepers (now : Nat) :
    (self.wakeSleepers now).tasks[i]? =
      (self.tasks[i]?).map fun task => { task with state := wakeState now task.state } := by
  unfold wakeSleepers
  rw [List.getElem?_map]
  congr 1
  funext ⟨id, name, state, rsp, entry⟩
  cases state with
  | sleeping wake =>
      dsimp only [wakeState]
      by_cases hwake : wake ≤ now
      · rw [if_pos hwake, if_pos hwake]
      · rw [if_neg hwake, if_neg hwake]
  | running => rfl
  | ready => rfl
  | exited => rfl

theorem stateAt_wakeSleepers (now : Nat) :
    (self.wakeSleepers now).stateAt i = (self.stateAt i).map (wakeState now) := by
  unfold stateAt
  rw [getElem?_wakeSleepers, Option.map_map, Option.map_map]
  rfl

/-- Waking up touches nothing but sleepers. -/
theorem wakeState_eq_iff {now : Nat} {state' : InternalState} (hready : state' ≠ .ready)
    (hsleeping : ∀ wake, state' ≠ .sleeping wake) :
    wakeState now state = state' ↔ state = state' := by
  cases state with
  | sleeping wake =>
      dsimp only [wakeState]
      by_cases hwake : wake ≤ now
      · rw [if_pos hwake]
        exact ⟨fun h => absurd h.symm hready, fun h => absurd h.symm (hsleeping wake)⟩
      · rw [if_neg hwake]
  | running => exact Iff.rfl
  | ready => exact Iff.rfl
  | exited => exact Iff.rfl

theorem stateAt_wakeSleepers_eq_iff {now : Nat} (hready : state ≠ .ready)
    (hsleeping : ∀ wake, state ≠ .sleeping wake) :
    (self.wakeSleepers now).stateAt i = some state ↔ self.stateAt i = some state := by
  rw [stateAt_wakeSleepers, Option.map_eq_some_iff]
  constructor
  · rintro ⟨state', hstate, hwake⟩
    rw [hstate, (wakeState_eq_iff hready hsleeping).mp hwake]
  · intro hstate
    exact ⟨state, hstate, (wakeState_eq_iff hready hsleeping).mpr rfl⟩

/-- Who is ready after a wake-up pass. -/
theorem stateAt_wakeSleepers_ready {now : Nat} :
    (self.wakeSleepers now).stateAt i = some .ready ↔
      self.stateAt i = some .ready ∨ ∃ wake ≤ now, self.stateAt i = some (.sleeping wake) := by
  rw [stateAt_wakeSleepers, Option.map_eq_some_iff]
  constructor
  · rintro ⟨state, hstate, hwake⟩
    cases state with
    | sleeping wake =>
        by_cases hle : wake ≤ now
        · exact .inr ⟨wake, hle, hstate⟩
        · rw [wakeState, if_neg hle] at hwake
          cases hwake
    | ready => exact .inl hstate
    | running => cases hwake
    | exited => cases hwake
  · rintro (hstate | ⟨wake, hle, hstate⟩)
    · exact ⟨_, hstate, rfl⟩
    · exact ⟨_, hstate, if_pos hle⟩

/-! ## Round robin -/

/-- How many places after `start` the index `i` comes, cyclically: `(i - start) mod len`. -/
def distance (len start i : Nat) : Nat := (i + len - start) % len

theorem distance_eq (hstart : start < len) (hi : i < len) :
    distance len start i = if start ≤ i then i - start else i + len - start := by
  unfold distance
  by_cases hle : start ≤ i
  · rw [if_pos hle, show i + len - start = i - start + len by omega, Nat.add_mod_right,
      Nat.mod_eq_of_lt (by omega)]
  · rw [if_neg hle, Nat.mod_eq_of_lt (by omega)]

/-- The index `offset` places after `start`. -/
theorem distance_offset {offset : Nat} (hstart : start < len) (hlt : offset < len) :
    distance len start ((start + offset) % len) = offset := by
  rw [distance_eq hstart (Nat.mod_lt _ (by omega))]
  by_cases hwrap : start + offset < len
  · rw [Nat.mod_eq_of_lt hwrap, if_pos (by omega)]
    omega
  · rw [Nat.mod_eq_sub_mod (by omega), Nat.mod_eq_of_lt (by omega), if_neg (by omega)]
    omega

/-- Every index is its distance after `start`. -/
theorem add_distance (hstart : start < len) (hi : i < len) :
    (start + distance len start i) % len = i := by
  rw [distance_eq hstart hi]
  by_cases hle : start ≤ i
  · rw [if_pos hle, Nat.add_sub_cancel' hle, Nat.mod_eq_of_lt hi]
  · rw [if_neg hle, Nat.add_sub_cancel' (by omega), Nat.add_mod_right, Nat.mod_eq_of_lt hi]

theorem distance_lt (start i : Nat) (hpos : 0 < len) : distance len start i < len :=
  Nat.mod_lt _ hpos

theorem distance_pos (hstart : start < len) (hi : i < len) (hne : i ≠ start) :
    0 < distance len start i := by
  rw [distance_eq hstart hi]
  split <;> omega

/-- The ready task that comes first after the current one. -/
structure FirstReady (s : Scheduler) (next : Nat) : Prop where
  other : next ≠ s.current
  ready : s.stateAt next = some .ready
  first : ∀ i, i ≠ s.current → s.stateAt i = some .ready →
    distance s.tasks.length s.current next ≤ distance s.tasks.length s.current i

/-- The task found is the first ready one. -/
theorem nextReady_some (hcurrent : self.current < self.tasks.length)
    (h : self.nextReady = some next) : FirstReady self next := by
  unfold nextReady at h
  dsimp only at h
  by_cases hlen : self.tasks.length ≤ 1
  · rw [if_pos hlen] at h
    cases h
  rw [if_neg hlen] at h
  obtain ⟨before, offset, after, hrange, hfound, hbefore⟩ := List.findSome?_eq_some_iff.mp h
  have hmem : offset ∈ List.range' 1 (self.tasks.length - 1) := by
    rw [hrange]
    exact List.mem_append_right _ List.mem_cons_self
  have hoffset := List.mem_range'_1.mp hmem
  by_cases hready : self.stateAt ((self.current + offset) % self.tasks.length) = some .ready
  · rw [if_pos hready] at hfound
    obtain rfl := Option.some.inj hfound
    have hdistance := distance_offset hcurrent (show offset < self.tasks.length by omega)
    refine ⟨fun heq => ?_, hready, fun i hne hi => ?_⟩
    · rw [heq, distance_eq hcurrent hcurrent, if_pos (le_refl _)] at hdistance
      omega
    · have hlt := lt_of_stateAt hi
      have hpos := distance_pos hcurrent hlt hne
      have hmem : distance self.tasks.length self.current i ∈ before ++ offset :: after := by
        rw [← hrange]
        have := distance_lt self.current i (Nat.zero_lt_of_lt hcurrent)
        exact List.mem_range'_1.mpr (by omega)
      have hsorted : (before ++ offset :: after).Pairwise (· < ·) := by
        rw [← hrange]
        exact List.pairwise_lt_range'
      rw [hdistance]
      rcases List.mem_append.mp hmem with hearlier | hlater
      · -- the scan would have stopped at this task
        have hnone := hbefore _ hearlier
        rw [add_distance hcurrent hlt, if_pos hi] at hnone
        cases hnone
      · rcases List.mem_cons.mp hlater with heq | hlater
        · exact le_of_eq heq.symm
        · have hafter := (List.pairwise_cons.mp (List.pairwise_append.mp hsorted).2.1).1
          exact le_of_lt (hafter _ hlater)
  · rw [if_neg hready] at hfound
    cases hfound

/-- If none is found, no other task is ready. -/
theorem nextReady_none (hcurrent : self.current < self.tasks.length) (h : self.nextReady = none) :
    ∀ i, i ≠ self.current → self.stateAt i ≠ some .ready := by
  intro i hne hready
  have hi := lt_of_stateAt hready
  unfold nextReady at h
  dsimp only at h
  rw [if_neg (by omega), List.findSome?_eq_none_iff] at h
  have hpos := distance_pos hcurrent hi hne
  have hlt := distance_lt self.current i (Nat.zero_lt_of_lt hcurrent)
  have hnone := h (distance self.tasks.length self.current i)
    (List.mem_range'_1.mpr ⟨by omega, by omega⟩)
  rw [add_distance hcurrent hi, if_pos hready] at hnone
  cases hnone

/-! ## Handing over -/

/-- The current task gets `state` and is left on `saved`; `next` runs. -/
def handOver (self : Scheduler) (state : InternalState) (next : Nat) (saved : Stack) : Scheduler :=
  (self.setState self.current state).switchTo next saved

theorem getElem?_handOver (state : InternalState) (saved : Stack) :
    (self.handOver state next saved).tasks[i]? = (self.tasks[i]?).map fun task =>
      { task with
        state := if i = next then .running else if i = self.current then state else task.state
        rsp := if i = self.current then saved else task.rsp } := by
  unfold handOver switchTo setState
  rw [List.getElem?_modify, List.getElem?_modify, List.getElem?_modify]
  cases self.tasks[i]? with
  | none => rfl
  | some task =>
      by_cases hnext : next = i
      · by_cases hcurrent : self.current = i
        · simp [hnext, hcurrent]
        · simp [hnext, hcurrent, Ne.symm hcurrent]
      · by_cases hcurrent : self.current = i
        · simp [hnext, hcurrent, Ne.symm hnext]
        · simp [hnext, hcurrent, Ne.symm hcurrent, Ne.symm hnext]

theorem stateAt_handOver (state : InternalState) (saved : Stack) :
    (self.handOver state next saved).stateAt i = (self.stateAt i).map fun old =>
      if i = next then .running else if i = self.current then state else old := by
  unfold stateAt
  rw [getElem?_handOver, Option.map_map, Option.map_map]
  rfl

theorem length_handOver (state : InternalState) (next : Nat) (saved : Stack) :
    (self.handOver state next saved).tasks.length = self.tasks.length := by
  unfold handOver switchTo setState
  simp only [List.length_modify]

/-- Taking the processor away from the running task and giving it back. -/
theorem setState_running (state : InternalState)
    (hrunning : self.stateAt self.current = some .running) :
    (self.setState self.current state).setState self.current .running = self := by
  have htasks : ((self.setState self.current state).setState self.current .running).tasks =
      self.tasks := by
    unfold setState
    rw [List.modify_modify_eq]
    refine List.ext_getElem? fun i => ?_
    rw [List.getElem?_modify]
    cases htask : self.tasks[i]? with
    | none => rfl
    | some task =>
        by_cases hi : self.current = i
        · obtain ⟨task', htask', hstate⟩ := stateAt_eq_some.mp hrunning
          rw [hi, htask] at htask'
          obtain rfl := Option.some.inj htask'
          show some (if _ then _ else _) = some task
          rw [if_pos hi]
          show some { task with state := InternalState.running } = some task
          rw [← hstate]
        · show some (if _ then _ else _) = some task
          rw [if_neg hi]
  exact congrArg (fun tasks => { self with tasks := tasks }) htasks

theorem stateAt_setState_of_ne {index : Nat} (state : InternalState) (hne : i ≠ index) :
    (self.setState index state).stateAt i = self.stateAt i := by
  unfold stateAt setState
  rw [List.getElem?_modify]
  cases self.tasks[i]? with
  | none => rfl
  | some task =>
      show (some (if _ then _ else _)).map Task.state = _
      rw [if_neg (Ne.symm hne)]

theorem length_setState (index : Nat) (state : InternalState) :
    (self.setState index state).tasks.length = self.tasks.length := List.length_modify _ _ _

end Scheduler

/-! ## The invariant -/

/-- The task continues somewhere when it is switched to. -/
def Task.Resumable (task : Task) : Prop :=
  match task.rsp with
  | .unset => False
  | .trampoline => task.entry ≠ none
  | .inYield => True
  | .inSleep _ => True
  | .inExit => False

/-- What holds of the scheduler between two steps. -/
structure Sound (s : Scheduler) : Prop where
  current : s.current < s.tasks.length
  running : ∀ i, s.stateAt i = some .running ↔ i = s.current
  ids : (s.tasks.map Task.id).Nodup
  fresh : ∀ task ∈ s.tasks, task.id < s.nextId
  resumable : ∀ i task, s.tasks[i]? = some task → i ≠ s.current → task.state ≠ .exited →
    task.Resumable

/-- What a step may do to the tasks: they keep their ids, an exited task stays
exited, and a new current task was ready after the wake-up pass. -/
structure Follows (now : Nat) (s s' : Scheduler) : Prop where
  kept : ∀ (i : Nat) (task : Task), s.tasks[i]? = some task →
    ∃ task' : Task, s'.tasks[i]? = some task' ∧ task'.id = task.id ∧
      (task.state = .exited → task'.state = .exited)
  chosen : s'.current ≠ s.current → (s.wakeSleepers now).stateAt s'.current = some .ready

section Steps

variable {s : Scheduler} {now next : Nat}

theorem map_id_congr {tasks tasks' : List Task}
    (h : ∀ i : Nat, (tasks'[i]?).map Task.id = (tasks[i]?).map Task.id) :
    tasks'.map Task.id = tasks.map Task.id := by
  refine List.ext_getElem? fun i => ?_
  rw [List.getElem?_map, List.getElem?_map]
  exact h i

/-- Ids survive whatever keeps them in place. -/
theorem Sound.keep_ids {s' : Scheduler} (h : Sound s) (hnext : s'.nextId = s.nextId)
    (hids : ∀ i : Nat, (s'.tasks[i]?).map Task.id = (s.tasks[i]?).map Task.id) :
    (s'.tasks.map Task.id).Nodup ∧ ∀ task ∈ s'.tasks, task.id < s'.nextId := by
  have hsame := map_id_congr hids
  refine ⟨by rw [hsame]; exact h.ids, fun task htask => ?_⟩
  have hmem : task.id ∈ s.tasks.map Task.id := by
    rw [← hsame]
    exact List.mem_map_of_mem htask
  obtain ⟨old, hold, hid⟩ := List.mem_map.mp hmem
  rw [hnext, ← hid]
  exact h.fresh old hold

theorem Sound.wake (h : Sound s) : Sound (s.wakeSleepers now) := by
  have hlength : (s.wakeSleepers now).tasks.length = s.tasks.length := List.length_map _
  obtain ⟨hids, hfresh⟩ := @Sound.keep_ids _ (s.wakeSleepers now) h rfl fun i => by
    rw [Scheduler.getElem?_wakeSleepers, Option.map_map]
    rfl
  refine ⟨by rw [hlength]; exact h.current, fun i => ?_, hids, hfresh,
    fun i task htask hne hlive => ?_⟩
  · rw [Scheduler.stateAt_wakeSleepers_eq_iff (by decide) (fun _ => by simp)]
    exact h.running i
  · rw [Scheduler.getElem?_wakeSleepers] at htask
    obtain ⟨old, hold, rfl⟩ := Option.map_eq_some_iff.mp htask
    refine h.resumable i old hold hne fun hexited => hlive ?_
    show Scheduler.wakeState now old.state = .exited
    rw [hexited]
    rfl

theorem follows_wake : Follows now s (s.wakeSleepers now) := by
  refine ⟨fun i task htask => ?_, fun hne => absurd rfl hne⟩
  refine ⟨{ task with state := Scheduler.wakeState now task.state }, ?_, rfl, fun hexited => ?_⟩
  · rw [Scheduler.getElem?_wakeSleepers, htask]
    rfl
  · show Scheduler.wakeState now task.state = .exited
    rw [hexited]
    rfl

/-- Handing the processor to a ready task. -/
theorem Sound.handOver {saved : Stack} (h : Sound s) (hother : next ≠ s.current)
    (hready : s.stateAt next = some .ready) (hstate : state ≠ .running)
    (hsaved : state ≠ .exited → saved = .inYield ∨ ∃ wake, saved = .inSleep wake) :
    Sound (s.handOver state next saved) := by
  obtain ⟨hids, hfresh⟩ := @Sound.keep_ids _ (s.handOver state next saved) h rfl fun i => by
    rw [Scheduler.getElem?_handOver, Option.map_map]
    rfl
  refine ⟨?_, fun i => ?_, hids, hfresh, fun i task htask hne hlive => ?_⟩
  · show next < _
    rw [Scheduler.length_handOver]
    exact Scheduler.lt_of_stateAt hready
  · show _ ↔ i = next
    rw [Scheduler.stateAt_handOver, Option.map_eq_some_iff]
    constructor
    · rintro ⟨old, hold, hrun⟩
      by_contra hne
      rw [if_neg hne] at hrun
      by_cases hcurrent : i = s.current
      · rw [if_pos hcurrent] at hrun
        exact hstate hrun
      · rw [if_neg hcurrent] at hrun
        rw [hrun] at hold
        exact hcurrent ((h.running i).mp hold)
    · rintro rfl
      exact ⟨_, hready, if_pos rfl⟩
  · rw [Scheduler.getElem?_handOver] at htask
    obtain ⟨old, hold, rfl⟩ := Option.map_eq_some_iff.mp htask
    have hne' : i ≠ next := hne
    by_cases hcurrent : i = s.current
    · simp only [if_neg hne', if_pos hcurrent] at hlive ⊢
      rcases hsaved hlive with hyield | ⟨wake, hsleep⟩
      · simp only [Task.Resumable, hyield]
      · simp only [Task.Resumable, hsleep]
    · simp only [if_neg hne', if_neg hcurrent] at hlive ⊢
      exact h.resumable i old hold hcurrent hlive

/-- Seen from before the wake-up pass. -/
theorem follows_handOver {saved : Stack} (h : Sound s) (hother : next ≠ s.current)
    (hready : (s.wakeSleepers now).stateAt next = some .ready) :
    Follows now s ((s.wakeSleepers now).handOver state next saved) := by
  refine ⟨fun i task htask => ?_, fun _ => hready⟩
  have htask' := @Scheduler.getElem?_handOver (s.wakeSleepers now) i next state saved
  rw [Scheduler.getElem?_wakeSleepers, htask] at htask'
  refine ⟨_, htask', rfl, fun hexited => ?_⟩
  have hstate : s.stateAt i = some .exited := Scheduler.stateAt_eq_some.mpr ⟨task, htask, hexited⟩
  have hnext : i ≠ next := by
    rintro rfl
    rw [(Scheduler.stateAt_wakeSleepers_eq_iff (by decide) (fun _ => by simp)).mpr hstate] at hready
    cases hready
  have hcurrent : i ≠ s.current := by
    rintro rfl
    rw [(h.running s.current).mpr rfl] at hstate
    cases hstate
  have hcurrent' : i ≠ (s.wakeSleepers now).current := hcurrent
  simp only [if_neg hnext, if_neg hcurrent', hexited]
  rfl

/-- A new task at the end of the table. -/
theorem Sound.spawned {task : Task} (h : Sound s) (hid : task.id = s.nextId)
    (hstate : task.state = .ready) (hresumable : task.Resumable) :
    Sound { s with nextId := s.nextId + 1, tasks := s.tasks ++ [task] } := by
  have hold : ∀ i < s.tasks.length, (s.tasks ++ [task])[i]? = s.tasks[i]? :=
    fun i hi => List.getElem?_append_left hi
  have hnew : ∀ i task', ¬ i < s.tasks.length → (s.tasks ++ [task])[i]? = some task' →
      task' = task := by
    intro i task' hi htask
    rw [List.getElem?_append_right (Nat.not_lt.mp hi)] at htask
    exact List.mem_singleton.mp (List.mem_of_getElem? htask)
  refine ⟨?_, fun i => ?_, ?_, fun task' htask => ?_, fun i task' htask hne hlive => ?_⟩
  · rw [List.length_append]
    exact Nat.lt_add_right _ h.current
  · rw [← h.running i, Scheduler.stateAt_eq_some, Scheduler.stateAt_eq_some]
    dsimp only
    by_cases hi : i < s.tasks.length
    · rw [hold i hi]
    · rw [List.getElem?_eq_none (Nat.not_lt.mp hi)]
      refine ⟨fun ⟨task', htask, hrunning⟩ => ?_, fun ⟨_, hnone, _⟩ => nomatch hnone⟩
      rw [hnew i task' hi htask, hstate] at hrunning
      cases hrunning
  · rw [List.map_append]
    refine List.nodup_append.mpr ⟨h.ids, List.nodup_singleton _, ?_⟩
    intro a ha b hb
    obtain ⟨task', htask', rfl⟩ := List.mem_map.mp ha
    obtain rfl := List.mem_singleton.mp hb
    rw [hid]
    exact Nat.ne_of_lt (h.fresh task' htask')
  · rcases List.mem_append.mp htask with hmem | hmem
    · exact Nat.lt_succ_of_lt (h.fresh task' hmem)
    · obtain rfl := List.mem_singleton.mp hmem
      exact Nat.lt_succ_of_le (le_of_eq hid)
  · by_cases hi : i < s.tasks.length
    · rw [hold i hi] at htask
      exact h.resumable i task' htask hne hlive
    · rw [hnew i task' hi htask]
      exact hresumable

/-- What one step does to the scheduler. -/
inductive Moves (now : Nat) (s : Scheduler) : Scheduler → Prop
  | same : Moves now s s
  | woken : Moves now s (s.wakeSleepers now)
  | spawned (name : String) (entry : TaskEntry) : Moves now s { s with
      nextId := s.nextId + 1
      tasks := s.tasks ++ [⟨s.nextId, name, .ready, .trampoline, some entry⟩] }
  | handed {state : InternalState} {saved : Stack} {next : Nat} :
      (s.wakeSleepers now).FirstReady next → state ≠ .running →
      (state ≠ .exited → saved = .inYield ∨ ∃ wake, saved = .inSleep wake) →
      Moves now s ((s.wakeSleepers now).handOver state next saved)

theorem Moves.sound {s' : Scheduler} (hmoves : Moves now s s') (h : Sound s) : Sound s' := by
  cases hmoves with
  | same => exact h
  | woken => exact h.wake
  | spawned name entry => exact h.spawned rfl rfl (Option.some_ne_none entry)
  | handed hfirst hstate hsaved => exact h.wake.handOver hfirst.other hfirst.ready hstate hsaved

theorem Moves.follows {s' : Scheduler} (hmoves : Moves now s s') (h : Sound s) :
    Follows now s s' := by
  cases hmoves with
  | same => exact ⟨fun i task htask => ⟨task, htask, rfl, id⟩, fun hne => absurd rfl hne⟩
  | woken => exact follows_wake
  | spawned name entry =>
      refine ⟨fun i task htask => ⟨task, ?_, rfl, id⟩, fun hne => absurd rfl hne⟩
      rw [List.getElem?_append_left (List.getElem?_eq_some_iff.mp htask).1]
      exact htask
  | handed hfirst _ _ => exact follows_handOver h hfirst.other hfirst.ready

end Steps

/-! ## The operations -/

namespace World

variable {w : World}

/-- Another task is ready, or due. -/
def Successor (w : World) : Prop :=
  ∃ i, i ≠ w.scheduler.current ∧ (w.scheduler.stateAt i = some .ready ∨
    ∃ wake ≤ w.ticks, w.scheduler.stateAt i = some (.sleeping wake))

theorem successor_iff : w.Successor ↔ ∃ i, i ≠ w.scheduler.current ∧
    (w.scheduler.wakeSleepers w.ticks).stateAt i = some .ready := by
  refine exists_congr fun i => and_congr_right fun _ => ?_
  exact Scheduler.stateAt_wakeSleepers_ready.symm

/-- What `next_ready` returns once the old task has its new state. -/
theorem nextReady_cases {s : Scheduler} (h : Sound s) (state : InternalState) :
    ((∀ i, i ≠ s.current → s.stateAt i ≠ some .ready) ∧
      (s.setState s.current state).nextReady = none) ∨
    ∃ next, s.FirstReady next ∧ (s.setState s.current state).nextReady = some next := by
  have hcurrent : (s.setState s.current state).current <
      (s.setState s.current state).tasks.length := by
    rw [Scheduler.length_setState]
    exact h.current
  cases hnext : (s.setState s.current state).nextReady with
  | none =>
      refine .inl ⟨fun i hne hready => ?_, rfl⟩
      refine Scheduler.nextReady_none hcurrent hnext i hne ?_
      rw [Scheduler.stateAt_setState_of_ne state hne]
      exact hready
  | some next =>
      obtain ⟨hne, hready, hfirst⟩ := Scheduler.nextReady_some hcurrent hnext
      have hne : next ≠ s.current := hne
      rw [Scheduler.stateAt_setState_of_ne state hne] at hready
      refine .inr ⟨next, ⟨hne, hready, fun i hi hiready => ?_⟩, rfl⟩
      have hle := hfirst i hi (by
        rw [Scheduler.stateAt_setState_of_ne state hi]
        exact hiready)
      rw [Scheduler.length_setState] at hle
      exact hle

/-- A task that can be resumed continues. -/
theorem resume_ok {task task' : Task} (hnow : w.scheduler.tasks[w.scheduler.current]? = some task')
    (hentry : task'.entry = task.entry) (h : task.Resumable) :
    w.resume task.rsp = .ok { w with control := .executing } := by
  unfold Task.Resumable at h
  unfold resume
  cases hrsp : task.rsp with
  | unset =>
      rw [hrsp] at h
      exact h.elim
  | trampoline =>
      rw [hrsp] at h
      dsimp only
      rw [hnow]
      exact if_neg (by rw [hentry]; exact h)
  | inYield => rfl
  | inSleep wake => rfl
  | inExit =>
      rw [hrsp] at h
      exact h.elim

/-- A switch to a ready task arrives. -/
theorem switch_ready {s : Scheduler} {next : Nat} (h : Sound s) (hother : next ≠ s.current)
    (hready : s.stateAt next = some .ready) (saved : Stack) :
    switch { w with scheduler := s.setState s.current state } next saved =
      .ok { w with scheduler := s.handOver state next saved, control := .executing } := by
  obtain ⟨task, htask, hstate⟩ := Scheduler.stateAt_eq_some.mp hready
  have hfound : (s.setState s.current state).tasks[next]? = some task := by
    unfold Scheduler.setState
    rw [List.getElem?_modify, htask]
    exact congrArg some (if_neg (Ne.symm hother))
  have hresumable := h.resumable next task htask hother (by rw [hstate]; decide)
  have hnow : (s.handOver state next saved).tasks[next]? = some { task with
      state := if next = next then .running else if next = s.current then state else task.state
      rsp := if next = s.current then saved else task.rsp } := by
    rw [Scheduler.getElem?_handOver, htask]
    rfl
  unfold switch
  rw [hfound]
  exact resume_ok hnow rfl hresumable

theorem length_handOver (state : InternalState) (next : Nat) (saved : Stack) :
    ((w.scheduler.wakeSleepers w.ticks).handOver state next saved).tasks.length =
      w.scheduler.tasks.length := by
  rw [Scheduler.length_handOver]
  exact List.length_map _

theorem yieldNow_cases (h : Sound w.scheduler) (hinit : w.initialized = true) :
    w.yieldNow = .ok { w with scheduler := w.scheduler.wakeSleepers w.ticks } ∨
    ∃ next, (w.scheduler.wakeSleepers w.ticks).FirstReady next ∧
      w.yieldNow = .ok { w with
        scheduler := (w.scheduler.wakeSleepers w.ticks).handOver .ready next .inYield
        control := .executing } := by
  have hwake : Sound (w.scheduler.wakeSleepers w.ticks) := h.wake
  have hrunning := (hwake.running _).mpr rfl
  unfold yieldNow
  rw [if_neg (by rw [hinit]; decide)]
  dsimp only
  rw [hrunning]
  dsimp only
  rw [if_pos rfl]
  rcases nextReady_cases hwake .ready with ⟨_, hnone⟩ | ⟨next, hfirst, hnext⟩
  · refine .inl ?_
    rw [hnone]
    have hback := Scheduler.setState_running .ready hrunning
    dsimp only
    exact congrArg (fun s => Except.ok { w with scheduler := s }) hback
  · refine .inr ⟨next, hfirst, ?_⟩
    rw [hnext]
    exact switch_ready hwake hfirst.other hfirst.ready .inYield

theorem fallAsleep_cases (h : Sound w.scheduler) (wake : Nat) :
    w.fallAsleep wake = .ok { w with
      scheduler := w.scheduler.wakeSleepers w.ticks
      control := .halted wake } ∨
    ∃ next, (w.scheduler.wakeSleepers w.ticks).FirstReady next ∧
      w.fallAsleep wake = .ok { w with
        scheduler := (w.scheduler.wakeSleepers w.ticks).handOver (.sleeping wake) next (.inSleep wake)
        control := .executing } := by
  have hwake : Sound (w.scheduler.wakeSleepers w.ticks) := h.wake
  have hrunning := (hwake.running _).mpr rfl
  unfold fallAsleep
  dsimp only
  rw [hrunning]
  dsimp only
  rcases nextReady_cases hwake (.sleeping wake) with ⟨_, hnone⟩ | ⟨next, hfirst, hnext⟩
  · refine .inl ?_
    rw [hnone]
    have hback := Scheduler.setState_running (.sleeping wake) hrunning
    dsimp only
    exact congrArg (fun s => Except.ok { w with scheduler := s, control := .halted wake }) hback
  · refine .inr ⟨next, hfirst, ?_⟩
    rw [hnext]
    exact switch_ready hwake hfirst.other hfirst.ready (.inSleep wake)

theorem exitCurrent_cases (h : Sound w.scheduler) :
    (¬ w.Successor ∧ w.exitCurrent = .error .noRunnableSuccessor) ∨
    ∃ next, (w.scheduler.wakeSleepers w.ticks).FirstReady next ∧
      w.exitCurrent = .ok { w with
        scheduler := (w.scheduler.wakeSleepers w.ticks).handOver .exited next .inExit
        control := .executing } := by
  have hwake : Sound (w.scheduler.wakeSleepers w.ticks) := h.wake
  have hrunning := (hwake.running _).mpr rfl
  unfold exitCurrent
  dsimp only
  rw [hrunning]
  dsimp only
  rcases nextReady_cases hwake .exited with ⟨hnobody, hnone⟩ | ⟨next, hfirst, hnext⟩
  · refine .inl ⟨fun hsuccessor => ?_, by rw [hnone]⟩
    obtain ⟨i, hne, hready⟩ := successor_iff.mp hsuccessor
    exact hnobody i hne hready
  · refine .inr ⟨next, hfirst, ?_⟩
    rw [hnext]
    exact switch_ready hwake hfirst.other hfirst.ready .inExit

/-- What a successful step does. -/
structure Effect (w : World) (a : Action) (w' : World) : Prop where
  initialized : w'.initialized = true
  ticks : w'.ticks = if a = .interrupt then wrappingAdd w.ticks 1 else w.ticks
  moves : Moves w.ticks w.scheduler w'.scheduler
  length : (∀ name entry, a ≠ .spawn name entry) →
    w'.scheduler.tasks.length = w.scheduler.tasks.length
  successor : a = .exitCurrent → w.Successor

theorem spawn_effect (hinit : w.initialized = true) (name : String) (entry : TaskEntry) :
    Effect w (.spawn name entry) (w.spawn name entry).1 := by
  have hspawn : Action.spawn name entry = .exitCurrent → w.Successor := fun hno => nomatch hno
  unfold spawn
  rw [if_neg (by rw [hinit]; decide)]
  dsimp only
  cases hadd : checkedAdd w.scheduler.nextId 1 with
  | none => exact ⟨hinit, rfl, .same, fun _ => rfl, hspawn⟩
  | some nextId =>
      obtain ⟨rfl, _⟩ := checkedAdd_eq_some.mp hadd
      exact ⟨hinit, rfl, .spawned name entry, fun hno => absurd rfl (hno name entry), hspawn⟩

theorem yieldNow_effect (h : Sound w.scheduler) (hinit : w.initialized = true) :
    ∃ w', w.yieldNow = .ok w' ∧ Effect w .yieldNow w' := by
  rcases yieldNow_cases h hinit with hstay | ⟨next, hfirst, hswitch⟩
  · exact ⟨_, hstay, hinit, rfl, .woken, fun _ => List.length_map _, nofun⟩
  · exact ⟨_, hswitch, hinit, rfl, .handed hfirst (by decide) (fun _ => .inl rfl),
      fun _ => length_handOver _ _ _, nofun⟩

/-- **One step** has its effect, or a task exits without a successor. -/
theorem act_effect (h : Sound w.scheduler) (hinit : w.initialized = true)
    (hact : w.act a = some r) :
    (a = .exitCurrent ∧ ¬ w.Successor ∧ r = .error .noRunnableSuccessor) ∨
    ∃ w', r = .ok w' ∧ Effect w a w' := by
  have hcalled : ∀ {result}, w.whenExecuting result = some r → result = r := by
    intro result hresult
    unfold whenExecuting at hresult
    by_cases hexec : w.control = .executing
    · rw [if_pos hexec] at hresult
      exact Option.some.inj hresult
    · rw [if_neg hexec] at hresult
      cases hresult
  cases a with
  | spawn name entry =>
      obtain rfl := hcalled hact
      exact .inr ⟨_, rfl, spawn_effect hinit name entry⟩
  | yieldNow =>
      obtain rfl := hcalled hact
      exact .inr (yieldNow_effect h hinit)
  | checkpoint =>
      obtain rfl := hcalled hact
      unfold checkpoint
      cases w.rescheduleRequested with
      | false => exact .inr ⟨w, rfl, hinit, rfl, .same, fun _ => rfl, nofun⟩
      | true =>
          obtain ⟨w', hw', heffect⟩ := @yieldNow_effect { w with rescheduleRequested := false } h hinit
          exact .inr ⟨w', hw', heffect.initialized, heffect.ticks, heffect.moves,
            fun _ => heffect.length nofun, nofun⟩
  | sleepTicks ticks =>
      obtain rfl := hcalled hact
      unfold sleepTicks
      by_cases hzero : ticks = 0
      · rw [if_pos hzero]
        obtain ⟨w', hw', heffect⟩ := yieldNow_effect h hinit
        exact .inr ⟨w', hw', heffect.initialized, heffect.ticks, heffect.moves,
          fun _ => heffect.length nofun, nofun⟩
      · rw [if_neg hzero, if_neg (by rw [hinit]; decide)]
        exact .inr ⟨_, rfl, hinit, rfl, .same, fun _ => rfl, nofun⟩
  | exitCurrent =>
      obtain rfl := hcalled hact
      rcases exitCurrent_cases h with ⟨hnobody, hpanic⟩ | ⟨next, hfirst, hswitch⟩
      · exact .inl ⟨rfl, hnobody, hpanic⟩
      · exact .inr ⟨_, hswitch, hinit, rfl,
          .handed hfirst (by decide) (fun hlive => absurd rfl hlive), fun _ => length_handOver _ _ _,
          fun _ => successor_iff.mpr ⟨next, hfirst.other, hfirst.ready⟩⟩
  | proceed =>
      unfold act at hact
      cases hcontrol : w.control with
      | executing =>
          rw [hcontrol] at hact
          cases hact
      | fallingAsleep wake =>
          rw [hcontrol] at hact
          obtain rfl := Option.some.inj hact
          rcases fallAsleep_cases h wake with hstay | ⟨next, hfirst, hswitch⟩
          · exact .inr ⟨_, hstay, hinit, rfl, .woken, fun _ => List.length_map _, nofun⟩
          · exact .inr ⟨_, hswitch, hinit, rfl, .handed hfirst nofun (fun _ => .inr ⟨wake, rfl⟩),
              fun _ => length_handOver _ _ _, nofun⟩
      | halted wake =>
          rw [hcontrol] at hact
          dsimp only at hact
          by_cases hearly : w.ticks < wake
          · rw [if_pos hearly] at hact
            cases hact
          · rw [if_neg hearly] at hact
            obtain rfl := Option.some.inj hact
            exact .inr ⟨_, rfl, hinit, rfl, .same, fun _ => rfl, nofun⟩
  | interrupt =>
      obtain rfl := Option.some.inj hact
      exact .inr ⟨_, rfl, hinit, rfl, .same, fun _ => rfl, nofun⟩

/-- The scheduler stays sound and keeps its tasks. -/
theorem act_cases (h : Sound w.scheduler) (hinit : w.initialized = true) (hact : w.act a = some r) :
    (a = .exitCurrent ∧ ¬ w.Successor ∧ r = .error .noRunnableSuccessor) ∨
    ∃ w', r = .ok w' ∧ w'.initialized = true ∧ Sound w'.scheduler ∧
      Follows w.ticks w.scheduler w'.scheduler ∧ (a = .exitCurrent → w.Successor) := by
  rcases act_effect h hinit hact with hpanic | ⟨w', hr, heffect⟩
  · exact .inl hpanic
  · exact .inr ⟨w', hr, heffect.initialized, heffect.moves.sound h, heffect.moves.follows h,
      heffect.successor⟩

/-! ## Whole runs -/

/-- The machine after `init`. -/
def started (ticks : Nat) : World :=
  ⟨⟨[⟨0, "boot", .running, .unset, none⟩,
      ⟨1, "kworker/0", .ready, .trampoline, some .housekeepingTask⟩], 0, 2, 0⟩,
    true, false, ticks, .executing⟩

theorem init_boot (ticks : Nat) : (boot ticks).init = .ok (started ticks) := by
  have hadd : checkedAdd 1 1 = some 2 := checkedAdd_eq_some.mpr ⟨rfl, lt_wordSize (by decide)⟩
  unfold init
  rw [if_neg fun h => h rfl]
  dsimp only [spawn]
  rw [if_neg Bool.noConfusion, hadd]
  rfl

theorem started_sound (ticks : Nat) : Sound (started ticks).scheduler := by
  refine ⟨Nat.zero_lt_two, fun i => ?_, show [0, 1].Nodup by decide, fun task htask => ?_,
    fun i task htask hne _ => ?_⟩
  · match i with
    | 0 => exact ⟨fun _ => rfl, fun _ => rfl⟩
    | 1 => exact ⟨(fun h => nomatch h), (fun h => nomatch h)⟩
    | i + 2 => exact ⟨(fun h => nomatch h), (fun h => nomatch h)⟩
  · rcases List.mem_cons.mp htask with rfl | htask
    · exact Nat.zero_lt_two
    · obtain rfl := List.mem_singleton.mp htask
      exact Nat.one_lt_two
  · match i with
    | 0 => exact absurd rfl hne
    | 1 =>
        obtain rfl := Option.some.inj htask
        exact Option.some_ne_none _
    | i + 2 => cases htask

end World

/-- What every run keeps: no panic but that of an exit without successor, and
otherwise a sound scheduler. -/
def Healthy : Except Panic World → Prop
  | .error e => e = .noRunnableSuccessor
  | .ok w => w.initialized = true ∧ Sound w.scheduler

theorem healthy_init (ticks : Nat) : Healthy (World.boot ticks).init := by
  rw [World.init_boot]
  exact ⟨rfl, World.started_sound ticks⟩

theorem healthy_step {r' : Except Panic World} (h : Healthy r) (hstep : step r a = some r') :
    Healthy r' := by
  cases r with
  | error e => cases hstep
  | ok w =>
      rcases World.act_cases h.2 h.1 hstep with ⟨_, _, rfl⟩ | ⟨w', rfl, hinit, hsound, _⟩
      · exact rfl
      · exact ⟨hinit, hsound⟩

theorem healthy_run {r' : Except Panic World} {actions : List Action} (h : Healthy r)
    (hrun : run step r actions = some r') : Healthy r' :=
  run_invariant (P := fun _ _ => True) (fun _ _ _ hinv _ hs => healthy_step hinv hs) h
    (along_true _ _) hrun

/-- An exited task stays exited. -/
theorem exited_run {w w' : World} {actions : List Action} {i : Nat} (h : Healthy (.ok w))
    (hexited : w.scheduler.stateAt i = some .exited)
    (hrun : run step (.ok w) actions = some (.ok w')) : w'.scheduler.stateAt i = some .exited := by
  have hinv : ∀ r a r', (Healthy r ∧ ∀ w, r = .ok w → w.scheduler.stateAt i = some .exited) →
      True → step r a = some r' →
      Healthy r' ∧ ∀ w, r' = .ok w → w.scheduler.stateAt i = some .exited := by
    intro r a r' ⟨hhealthy, hstate⟩ _ hstep
    refine ⟨healthy_step hhealthy hstep, fun w₂ hw₂ => ?_⟩
    cases r with
    | error e => cases hstep
    | ok w₁ =>
        obtain ⟨task, htask, htaskState⟩ := Scheduler.stateAt_eq_some.mp (hstate w₁ rfl)
        rcases World.act_cases hhealthy.2 hhealthy.1 hstep with
          ⟨_, _, rfl⟩ | ⟨w₃, rfl, _, _, hfollows, _⟩
        · cases hw₂
        · obtain rfl := Except.ok.inj hw₂
          obtain ⟨task', htask', _, hkeep⟩ := hfollows.kept i task htask
          exact Scheduler.stateAt_eq_some.mpr ⟨task', htask', hkeep htaskState⟩
  have hfinal := run_invariant hinv (s := Except.ok w)
    ⟨h, fun w₁ hw₁ => by rw [← Except.ok.inj hw₁]; exact hexited⟩ (along_true _ _) hrun
  exact hfinal.2 w' rfl

/-- **The scheduler is a state machine with one running task.** After every run
that does not panic the current task is the only running one and ids are unique;
a task becomes current only when it is ready; and a task that has exited stays
exited and is never current again. -/
theorem run_scheduled {ticks : Nat} {actions : List Action} {w : World}
    (hrun : run step (World.boot ticks).init actions = some (.ok w)) :
    w.scheduler.current < w.scheduler.tasks.length ∧
    (∀ i, w.scheduler.stateAt i = some .running ↔ i = w.scheduler.current) ∧
    (w.scheduler.tasks.map Task.id).Nodup ∧
    (∀ a w', step (.ok w) a = some (.ok w') → w'.scheduler.current ≠ w.scheduler.current →
      (w.scheduler.wakeSleepers w.ticks).stateAt w'.scheduler.current = some .ready) ∧
    (∀ more w' i, run step (.ok w) more = some (.ok w') →
      w.scheduler.stateAt i = some .exited →
      w'.scheduler.stateAt i = some .exited ∧ w'.scheduler.current ≠ i) := by
  have hhealthy : Healthy (.ok w) := healthy_run (healthy_init ticks) hrun
  refine ⟨hhealthy.2.current, hhealthy.2.running, hhealthy.2.ids, fun a w' hstep hne => ?_,
    fun more w' i hmore hexited => ?_⟩
  · rcases World.act_cases hhealthy.2 hhealthy.1 hstep with
      ⟨_, _, herr⟩ | ⟨w₁, hw₁, _, _, hfollows, _⟩
    · cases herr
    · obtain rfl := Except.ok.inj hw₁
      exact hfollows.chosen hne
  · have hstill := exited_run hhealthy hexited hmore
    have hafter : Healthy (.ok w') := healthy_run hhealthy hmore
    refine ⟨hstill, fun heq => ?_⟩
    rw [← heq, (hafter.2.running _).mpr rfl] at hstill
    cases hstill

/-- The boot task yields to the worker, which goes to sleep. -/
theorem run_scheduled_yield : ∃ w,
    run step (World.boot 0).init [.yieldNow, .sleepTicks 100, .proceed] = some (.ok w) ∧
    ∀ i, w.scheduler.stateAt i = some .running ↔ i = w.scheduler.current := by
  have hsome : (run step (World.boot 0).init [.yieldNow, .sleepTicks 100, .proceed]).bind
      Except.toOption ≠ none := by decide +kernel
  obtain ⟨w, hw⟩ := Option.ne_none_iff_exists'.mp hsome
  obtain ⟨r, hrun, hr⟩ := Option.bind_eq_some_iff.mp hw
  cases r with
  | error e => cases hr
  | ok w' => exact ⟨w', hrun, (run_scheduled hrun).2.1⟩

/-- Another task is ready or due whenever a task exits. -/
def ExitAllowed (r : Except Panic World) (a : Action) : Prop :=
  a = .exitCurrent → ∀ w, r = .ok w → w.Successor

/-- **A run panics exactly when a task exits that has no successor.** -/
theorem run_ok_iff_successors {ticks : Nat} {actions : List Action} {r : Except Panic World}
    (hrun : run step (World.boot ticks).init actions = some r) :
    (∃ w, r = .ok w) ↔ Along step ExitAllowed (World.boot ticks).init actions := by
  have hmain : ∀ (actions : List Action) (r₀ : Except Panic World), Healthy r₀ →
      (∃ w, r₀ = .ok w) → run step r₀ actions = some r →
      ((∃ w, r = .ok w) ↔ Along step ExitAllowed r₀ actions) := by
    intro actions
    induction actions with
    | nil =>
        intro r₀ _ hok hrun
        obtain rfl : r₀ = r := Option.some.inj hrun
        exact ⟨fun _ => trivial, fun _ => hok⟩
    | cons a rest ih =>
        intro r₀ hhealthy hok hrun
        obtain ⟨w, rfl⟩ := hok
        rw [run] at hrun
        cases hs : step (.ok w) a with
        | none =>
            rw [hs] at hrun
            cases hrun
        | some r₁ =>
            rw [hs] at hrun
            dsimp only at hrun
            have hhealthy₁ := healthy_step hhealthy hs
            rcases World.act_cases hhealthy.2 hhealthy.1 hs with
              ⟨rfl, hnobody, rfl⟩ | ⟨w₁, rfl, _, _, _, hsuccessor⟩
            · -- the run is over; `rest` is empty
              refine ⟨fun hend => ?_, fun halong => absurd (halong.1 rfl w rfl) hnobody⟩
              obtain ⟨w', hw'⟩ := hend
              cases rest with
              | nil =>
                  rw [← Option.some.inj hrun] at hw'
                  cases hw'
              | cons b rest => cases hrun
            · refine (ih _ hhealthy₁ ⟨w₁, rfl⟩ hrun).trans ⟨fun halong => ?_, fun halong => ?_⟩
              · refine ⟨fun ha w' hw' => ?_, fun r₂ hr₂ => ?_⟩
                · rw [← Except.ok.inj hw']
                  exact hsuccessor ha
                · rw [hs] at hr₂
                  rw [← Option.some.inj hr₂]
                  exact halong
              · exact halong.2 _ hs
  exact hmain actions _ (healthy_init ticks) ⟨_, World.init_boot ticks⟩ hrun

/-- A task that returns while the boot task is ready. -/
theorem run_ok_iff_successors_spawned : ∃ r,
    run step (World.boot 0).init [.spawn "smoke/a" (.function 0), .yieldNow, .yieldNow,
      .exitCurrent] = some r ∧
    ((∃ w, r = .ok w) ↔ Along step ExitAllowed (World.boot 0).init
      [.spawn "smoke/a" (.function 0), .yieldNow, .yieldNow, .exitCurrent]) := by
  have hsome : run step (World.boot 0).init [.spawn "smoke/a" (.function 0), .yieldNow, .yieldNow,
      .exitCurrent] ≠ none := by decide +kernel
  obtain ⟨r, hrun⟩ := Option.ne_none_iff_exists'.mp hsome
  exact ⟨r, hrun, run_ok_iff_successors hrun⟩

/-- The boot task sleeps 10 ticks, the worker sleeps 100, and the third task
returns in the meantime: the kernel panics instead of waiting. -/
theorem exit_while_others_sleep : run step (World.boot 0).init
    [.spawn "smoke/a" (.function 0), .sleepTicks 10, .proceed, .sleepTicks 100, .proceed,
      .exitCurrent] = some (.error .noRunnableSuccessor) := by
  decide +kernel

end GenericKernel.Sched
