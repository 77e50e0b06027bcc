import GenericKernel.Lib.Fallible

/-!
# Fallible computations on a state

A `Routine` reads and changes a state and returns, fails or panics; what a failed
routine has already done stays done. `Runs x s Q`: from `s` the routine does not
panic, and when it returns, the value and the new state are in `Q`. The rules
follow the syntax of a `do` block, so that a proof walks through the code.
-/

namespace GenericKernel.Lib

structure Routine (σ ε α : Type) where
  run : σ → Fallible ε α × σ

namespace Routine

variable {σ ε α β : Type}

protected def bind (x : Routine σ ε α) (f : α → Routine σ ε β) : Routine σ ε β where
  run s :=
    match x.run s with
    | (.ok a, s) => (f a).run s
    | (.error e, s) => (.error e, s)
    | (.panic, s) => (.panic, s)

instance : Monad (Routine σ ε) where
  pure a := ⟨fun s => (.ok a, s)⟩
  bind := Routine.bind

/-- A computation that does not touch the state. -/
def lift (x : Fallible ε α) : Routine σ ε α := ⟨fun s => (x, s)⟩

def get : Routine σ ε σ := ⟨fun s => (.ok s, s)⟩

def set (s : σ) : Routine σ ε Unit := ⟨fun _ => (.ok (), s)⟩

/-- `if bad { return Err(e) }` -/
def reject (bad : Prop) [Decidable bad] (e : ε) : Routine σ ε Unit := lift (.reject bad e)

theorem run_bind_ok {x : Routine σ ε α} {f : α → Routine σ ε β} {s s' : σ} {a : α}
    (h : x.run s = (.ok a, s')) : (x >>= f).run s = (f a).run s' := by
  show (Routine.bind x f).run s = _
  simp only [Routine.bind, h]

theorem run_bind_error {x : Routine σ ε α} {f : α → Routine σ ε β} {s s' : σ} {e : ε}
    (h : x.run s = (.error e, s')) : (x >>= f).run s = (.error e, s') := by
  show (Routine.bind x f).run s = _
  simp only [Routine.bind, h]

/-- `for a in as { f(a)? }` -/
def forEach (f : α → Routine σ ε Unit) : List α → Routine σ ε Unit
  | [] => pure ()
  | a :: rest => do
      f a
      forEach f rest

/-- A loop whose every turn returns. -/
theorem run_forEach {f : α → Routine σ ε Unit} {g : σ → α → σ} {as : List α}
    (h : ∀ a ∈ as, ∀ s, (f a).run s = (.ok (), g s a)) (s : σ) :
    (forEach f as).run s = (.ok (), as.foldl g s) := by
  induction as generalizing s with
  | nil => rfl
  | cons a rest ih =>
      rw [forEach, run_bind_ok (h a List.mem_cons_self s), List.foldl_cons]
      exact ih (fun b hb => h b (List.mem_cons_of_mem _ hb)) _

/-- No panic from `s`, and `Q` of what is returned. -/
structure Runs (x : Routine σ ε α) (s : σ) (Q : α → σ → Prop) : Prop where
  ne_panic : (x.run s).1 ≠ .panic
  returns : ∀ a, (x.run s).1 = .ok a → Q a (x.run s).2

namespace Runs

variable {s s' : σ} {a : α} {e : ε} {Q : α → σ → Prop} {R : β → σ → Prop} {x : Routine σ ε α}
  {f : α → Routine σ ε β}

theorem of_ok (h : x.run s = (.ok a, s')) (hQ : Q a s') : Runs x s Q := by
  constructor
  · simp [h]
  · intro b hb
    obtain rfl : a = b := by simpa [h] using hb
    simpa [h] using hQ

theorem of_error (h : x.run s = (.error e, s')) : Runs x s Q := by
  constructor
  · simp [h]
  · simp [h]

theorem pure (h : Q a s) : Runs (Pure.pure a : Routine σ ε α) s Q := of_ok rfl h

theorem bind (hx : Runs x s fun a s' => Runs (f a) s' R) : Runs (x >>= f) s R := by
  obtain ⟨hpanic, hok⟩ := hx
  rcases hstep : x.run s with ⟨result, s'⟩
  rw [hstep] at hpanic hok
  cases result with
  | ok a =>
      obtain ⟨hpanic', hok'⟩ := hok a rfl
      constructor
      · rwa [run_bind_ok hstep]
      · rwa [run_bind_ok hstep]
  | error e => exact of_error (run_bind_error hstep)
  | panic => exact absurd rfl hpanic

theorem mono (hx : Runs x s Q) {Q' : α → σ → Prop} (h : ∀ a s', Q a s' → Q' a s') :
    Runs x s Q' := ⟨hx.ne_panic, fun a ha => h a _ (hx.returns a ha)⟩

/-- A part that leaves the state alone, by its success condition. -/
theorem lift {y : Fallible ε α} {p : Prop} (h : y.Decides p a) (hQ : p → Q a s) :
    Runs (Routine.lift y) s Q := by
  refine ⟨h.ne_panic, ?_⟩
  intro b hb
  obtain ⟨hp, rfl⟩ := h.eq_ok_iff.mp hb
  exact hQ hp

theorem lift_ok {y : Fallible ε α} (h : y = .ok a) (hQ : Q a s) : Runs (Routine.lift y) s Q :=
  lift (.of_ok h) fun _ => hQ

theorem reject {bad : Prop} [Decidable bad] {Q : Unit → σ → Prop} (h : ¬ bad → Q () s) :
    Runs (Routine.reject bad e) s Q := lift .reject h

theorem get {Q : σ → σ → Prop} (h : Q s s) : Runs (Routine.get : Routine σ ε σ) s Q := of_ok rfl h

theorem set {Q : Unit → σ → Prop} (h : Q () s') : Runs (Routine.set s' : Routine σ ε Unit) s Q :=
  of_ok rfl h

end Runs

end Routine

end GenericKernel.Lib
