import GenericKernel.Sched.SchedulerLogic

/-!
# Round robin

Every switch goes to the first ready task after the current one (`FirstReady`), so
it cannot jump past a task that is ready.

* **one switch** — the distance from the current task to a ready one drops, or
  that task is now current (`act_approaches`);
* **frame** — a ready task stays ready until it is chosen (`Moves.ready`);
* **whole runs** — `selections` lists the tasks a run switches to. Before a ready
  task they have decreasing distances to it, so none comes twice
  (`selections_approach`).
-/

namespace GenericKernel.Sched

open GenericKernel.Lib Scheduler

variable {s s' : Scheduler} {w w' : World} {a : Action} {now j : Nat}

/-! ## One switch -/

/-- A switch past `next` comes closer to every task at least as far away. -/
theorem distance_between {len start next : Nat} (hstart : start < len) (hnext : next < len)
    (hj : j < len) (hle : distance len start next ≤ distance len start j) :
    distance len next j = distance len start j - distance len start next := by
  rw [distance_eq hstart hnext, distance_eq hstart hj] at hle
  rw [distance_eq hstart hnext, distance_eq hstart hj, distance_eq hnext hj]
  split at hle <;> split at hle <;> split <;> omega

theorem Moves.first (hmoves : Moves now s s') (hswitch : s'.current ≠ s.current) :
    (s.wakeSleepers now).FirstReady s'.current := by
  cases hmoves with
  | same => exact absurd rfl hswitch
  | woken => exact absurd rfl hswitch
  | spawned name entry => exact absurd rfl hswitch
  | handed hfirst _ _ => exact hfirst

/-- A ready task that is not chosen stays ready. -/
theorem Moves.ready (hmoves : Moves now s s') (hother : j ≠ s.current)
    (hready : s.stateAt j = some .ready) (hnot : s'.current ≠ j) :
    s'.stateAt j = some .ready := by
  have hwoken : (s.wakeSleepers now).stateAt j = some .ready :=
    stateAt_wakeSleepers_ready.mpr (.inl hready)
  cases hmoves with
  | same => exact hready
  | woken => exact hwoken
  | spawned name entry =>
      obtain ⟨task, htask, hstate⟩ := stateAt_eq_some.mp hready
      refine stateAt_eq_some.mpr ⟨task, ?_, hstate⟩
      rw [List.getElem?_append_left (lt_of_stateAt hready)]
      exact htask
  | handed hfirst _ _ =>
      rw [stateAt_handOver, hwoken]
      exact congrArg some ((if_neg (Ne.symm hnot)).trans (if_neg hother))

/-- The current task is not ready: it is running. -/
theorem Sound.ready_ne_current (h : Sound s) (hready : s.stateAt j = some .ready) :
    j ≠ s.current := by
  rintro rfl
  rw [(h.running s.current).mpr rfl] at hready
  cases hready

/-- A switch that is not to `j` comes closer to it. -/
theorem Moves.approaches (hmoves : Moves now s s') (h : Sound s)
    (hready : s.stateAt j = some .ready) (hswitch : s'.current ≠ s.current) :
    s'.current = j ∨ distance s.tasks.length s'.current j < distance s.tasks.length s.current j := by
  by_cases hj : s'.current = j
  · exact .inl hj
  have hfirst := hmoves.first hswitch
  have hlength : (s.wakeSleepers now).tasks.length = s.tasks.length := List.length_map _
  have hle := hfirst.first j (h.ready_ne_current hready)
    (stateAt_wakeSleepers_ready.mpr (.inl hready))
  have hnext := lt_of_stateAt hfirst.ready
  rw [hlength] at hle hnext
  have hpos := distance_pos h.current hnext hswitch
  have hbetween := distance_between h.current hnext (lt_of_stateAt hready) hle
  have hle : distance s.tasks.length s.current s'.current ≤
    distance s.tasks.length s.current j := hle
  exact .inr (by omega)

/-! ## Whole runs -/

/-- The task a step switches to, if it does. -/
def selected : Except Panic World → Except Panic World → List Nat
  | .ok w, .ok w' =>
      if w'.scheduler.current = w.scheduler.current then [] else [w'.scheduler.current]
  | _, _ => []

/-- The tasks a run switches to, in order. -/
def selections : Except Panic World → List Action → List Nat
  | _, [] => []
  | r, a :: rest =>
      match step r a with
      | none => []
      | some r' => selected r r' ++ selections r' rest

theorem selections_error (e : Panic) (actions : List Action) :
    selections (.error e) actions = [] := by
  cases actions with
  | nil => rfl
  | cons a rest => rfl

def NoSpawn (actions : List Action) : Prop := ∀ a ∈ actions, ∀ name entry, a ≠ .spawn name entry

/-- What a run selects on the way to the ready task `j`, which is `d` places away. -/
structure Approach (len j d : Nat) (selected : List Nat) : Prop where
  nodup : (selected.takeWhile (· ≠ j)).Nodup
  closer : ∀ i ∈ selected.takeWhile (· ≠ j), distance len i j < d
  reached : d ≤ selected.length → j ∈ selected.take d

theorem Approach.nil (len j : Nat) {d : Nat} (hpos : 0 < d) : Approach len j d [] :=
  ⟨List.nodup_nil, (fun _ hi => nomatch hi), fun hle => absurd hle (Nat.not_le.mpr hpos)⟩

theorem Approach.arrive (len : Nat) {d : Nat} (hpos : 0 < d) (rest : List Nat) :
    Approach len j d (j :: rest) := by
  have hnone : (j :: rest).takeWhile (· ≠ j) = [] := by
    rw [List.takeWhile_cons_of_neg (by simp)]
  refine ⟨hnone ▸ List.nodup_nil, fun i hi => ?_, fun _ => ?_⟩
  · rw [hnone] at hi
    cases hi
  · obtain ⟨d, rfl⟩ := Nat.exists_eq_add_one.mpr hpos
    exact List.mem_cons_self

/-- One selection of another task. -/
theorem Approach.cons {len i d : Nat} {rest : List Nat} (hne : i ≠ j)
    (hcloser : distance len i j < d) (h : Approach len j (distance len i j) rest) :
    Approach len j d (i :: rest) := by
  have htake : (i :: rest).takeWhile (· ≠ j) = i :: rest.takeWhile (· ≠ j) :=
    List.takeWhile_cons_of_pos (by simpa using hne)
  refine ⟨?_, fun k hk => ?_, fun hlong => ?_⟩
  · -- the tasks selected later are strictly closer to `j` than `i` is
    rw [htake]
    exact List.nodup_cons.mpr ⟨fun hagain => absurd (h.closer i hagain) (lt_irrefl _), h.nodup⟩
  · rw [htake] at hk
    rcases List.mem_cons.mp hk with rfl | hk
    · exact hcloser
    · exact (h.closer k hk).trans hcloser
  · obtain ⟨d, rfl⟩ := Nat.exists_eq_add_one.mpr (Nat.zero_lt_of_lt hcloser)
    have hle : distance len i j ≤ d := Nat.le_of_lt_succ hcloser
    rw [List.length_cons] at hlong
    have hmem := h.reached (by omega)
    exact List.mem_cons_of_mem _ (List.take_subset_take_left rest hle hmem)

/-- Every run without a new task goes towards a ready one. -/
theorem selections_approach {actions : List Action} (hnospawn : NoSpawn actions) :
    ∀ {w : World}, Healthy (.ok w) → w.scheduler.stateAt j = some .ready →
      Approach w.scheduler.tasks.length j
        (distance w.scheduler.tasks.length w.scheduler.current j)
        (selections (.ok w) actions) := by
  induction actions with
  | nil =>
      intro w hhealthy hready
      exact .nil _ _ (distance_pos hhealthy.2.current (lt_of_stateAt hready)
        (hhealthy.2.ready_ne_current hready))
  | cons a rest ih =>
      intro w hhealthy hready
      have hother := hhealthy.2.ready_ne_current hready
      have hpos := distance_pos hhealthy.2.current (lt_of_stateAt hready) hother
      rw [selections]
      cases hs : step (.ok w) a with
      | none => exact .nil _ _ hpos
      | some r =>
          dsimp only
          rcases World.act_effect hhealthy.2 hhealthy.1 hs with ⟨_, _, rfl⟩ | ⟨w', rfl, heffect⟩
          · rw [selections_error]
            exact .nil _ _ hpos
          have hlength := heffect.length (hnospawn a List.mem_cons_self)
          have hrest : ¬ w'.scheduler.current = j → Approach w'.scheduler.tasks.length j
              (distance w'.scheduler.tasks.length w'.scheduler.current j)
              (selections (.ok w') rest) := fun hnot =>
            ih (fun b hb => hnospawn b (List.mem_cons_of_mem _ hb)) (healthy_step hhealthy hs)
              (heffect.moves.ready hother hready hnot)
          rw [hlength] at hrest
          rw [selected]
          by_cases hsame : w'.scheduler.current = w.scheduler.current
          · rw [if_pos hsame, List.nil_append, ← hsame]
            exact hrest (by rw [hsame]; exact Ne.symm hother)
          · rw [if_neg hsame, List.singleton_append]
            rcases heffect.moves.approaches hhealthy.2 hready hsame with rfl | hcloser
            · exact .arrive _ hpos _
            · by_cases hj : w'.scheduler.current = j
              · rw [hj]
                exact .arrive _ hpos _
              · exact .cons hj hcloser (hrest hj)

/-- **Round robin never jumps past a ready task.** In every reachable state, a step
that switches makes a ready task `j` current or brings the current task closer
to it; so, while no task is spawned, `j` is among the next `len - 1` selections,
and no other task is selected twice before it. -/
theorem run_selects_ready {ticks : Nat} {actions : List Action}
    (hrun : run step (World.boot ticks).init actions = some (.ok w))
    (hready : w.scheduler.stateAt j = some .ready) :
    (∀ a w', step (.ok w) a = some (.ok w') → w'.scheduler.current ≠ w.scheduler.current →
      w'.scheduler.current = j ∨
        distance w.scheduler.tasks.length w'.scheduler.current j <
          distance w.scheduler.tasks.length w.scheduler.current j) ∧
    ∀ more, NoSpawn more →
      (w.scheduler.tasks.length - 1 ≤ (selections (.ok w) more).length →
        j ∈ (selections (.ok w) more).take (w.scheduler.tasks.length - 1)) ∧
      ((selections (.ok w) more).takeWhile (· ≠ j)).Nodup := by
  have hhealthy : Healthy (.ok w) := healthy_run (healthy_init ticks) hrun
  refine ⟨fun a w' hs hswitch => ?_, fun more hnospawn => ?_⟩
  · rcases World.act_effect hhealthy.2 hhealthy.1 hs with ⟨_, _, herror⟩ | ⟨w₁, hw₁, heffect⟩
    · cases herror
    · obtain rfl := Except.ok.inj hw₁
      exact heffect.moves.approaches hhealthy.2 hready hswitch
  · have happroach := selections_approach hnospawn hhealthy hready
    refine ⟨fun hlong => ?_, happroach.nodup⟩
    have hlt := distance_lt w.scheduler.current j (Nat.zero_lt_of_lt hhealthy.2.current)
    have hle : distance w.scheduler.tasks.length w.scheduler.current j ≤
        w.scheduler.tasks.length - 1 := by omega
    exact List.take_subset_take_left _ hle (happroach.reached (hle.trans hlong))

/-- The machine after `init` and one `spawn`. -/
def withSpawned (ticks : Nat) : World :=
  ⟨⟨[⟨0, "boot", .running, .unset, none⟩,
      ⟨1, "kworker/0", .ready, .trampoline, some .housekeepingTask⟩,
      ⟨2, "smoke/a", .ready, .trampoline, some (.function 0)⟩], 0, 3, 0⟩,
    true, false, ticks, .executing⟩

/-- Two switches reach the spawned task. -/
theorem run_selects_ready_spawned :
    run step (World.boot 0).init [.spawn "smoke/a" (.function 0)] = some (.ok (withSpawned 0)) ∧
    (withSpawned 0).scheduler.stateAt 2 = some .ready ∧ NoSpawn [.yieldNow, .yieldNow] ∧
    2 ≤ (selections (.ok (withSpawned 0)) [.yieldNow, .yieldNow]).length ∧
    2 ∈ (selections (.ok (withSpawned 0)) [.yieldNow, .yieldNow]).take 2 := by
  have hrun : run step (World.boot 0).init [.spawn "smoke/a" (.function 0)] =
      some (.ok (withSpawned 0)) := by decide +kernel
  have hnospawn : NoSpawn [.yieldNow, .yieldNow] := by
    intro a ha name entry heq
    rw [heq] at ha
    simp at ha
  have hlong : 2 ≤ (selections (.ok (withSpawned 0)) [.yieldNow, .yieldNow]).length := by
    decide +kernel
  exact ⟨hrun, rfl, hnospawn, hlong, ((run_selects_ready hrun rfl).2 _ hnospawn).1 hlong⟩

end GenericKernel.Sched
