import GenericKernel.Lib.Program

/-!
# Programs over a block device

A program reads and writes numbered blocks and may stop with an error of its
own. The device may fail calls (`Env.faults`, by the number of the call); a
failed write leaves the block old or new. `Env.inv` is what must hold of the
disk before every call, so that a program proved in an environment respects it
wherever it is cut off.

* `Reads E k p d r` — on disk `d`, `p` makes `k` reads and returns `r`, unless
  one of these reads fails;
* `Runs E p d r d'` — from `d`, `p` returns `r` on disk `d'`, unless a call
  fails, and every disk on the way satisfies the invariant;
* `evaluate` — the run on a device without faults;
* `inv_of_exec` — every execution, cut off or not, ends on a disk that satisfies
  the invariant;
* `CanEnd E p s r s'` — some execution ends so; `Reads.canEnd`, `Runs.canEnd`: on a
  device that may fail, the run without faults is still one of the executions.
-/

namespace GenericKernel.Lib

variable {L B F ε α β : Type}

/-- Calls of a device with blocks of type `B`. The label says what the program
makes the call for; the device does not see it. -/
inductive BlockOp (L B : Type)
  | read (label : L) (block : Nat)
  | write (label : L) (block : Nat) (contents : B)

/-- Replies, or device errors of type `F`. -/
def BlockOp.Reply (F : Type) : BlockOp L B → Type
  | .read _ _ => Except F B
  | .write _ _ _ => Except F Unit

/-- A program with labels `L` over blocks `B` with device errors `F`, errors `ε`
and results `α`. -/
abbrev BlockProg (L B F ε α : Type) := ExceptT ε (Prog (@BlockOp.Reply L B F)) α

/-- Read a block; a device error becomes an error of the program. -/
def readBlock (onError : F → ε) (label : L) (block : Nat) : BlockProg L B F ε B :=
  ExceptT.mk (Prog.call (.read label block) fun reply : Except F B =>
    .done (reply.mapError onError))

/-- Write a block; a device error becomes an error of the program. -/
def writeBlock (onError : F → ε) (label : L) (block : Nat) (contents : B) :
    BlockProg L B F ε Unit :=
  ExceptT.mk (Prog.call (.write label block contents) fun reply : Except F Unit =>
    .done (reply.mapError onError))

/-- Run a program for its result, errors included. -/
def observe (p : BlockProg L B F ε α) : BlockProg L B F ε (Except ε α) :=
  ExceptT.mk (p.run >>= fun r => pure (.ok r))

/-- `for i in 0..count`. -/
def forRange (body : Nat → BlockProg L B F ε Unit) (count : Nat) : BlockProg L B F ε Unit :=
  go count 0
where
  go : Nat → Nat → BlockProg L B F ε Unit
    | 0, _ => pure ()
    | k + 1, i => do
        body i
        go k (i + 1)

/-! ## Devices -/

/-- The disk and the number of calls made. -/
structure DeviceState (B : Type) where
  disk : Nat → B
  calls : Nat

/-- A device of `size` blocks, the calls it may fail, and what has to hold of
the disk before every call. -/
structure Env (B F : Type) where
  size : Nat
  outOfRange : F
  inv : (Nat → B) → Prop
  faults : Nat → Prop

/-- What the device replies to a read if it does not fail. -/
def Env.answer (E : Env B F) (d : Nat → B) (block : Nat) : Except F B :=
  if block < E.size then .ok (d block) else .error E.outOfRange

def Env.spec (L : Type) (E : Env B F) : Spec (@BlockOp.Reply L B F) (DeviceState B) Empty where
  pre s _ := E.inv s.disk
  post s
    | .read _ block => fun reply s' => s'.calls = s.calls + 1 ∧ s'.disk = s.disk ∧
        (reply = E.answer s.disk block ∨ E.faults s.calls ∧ ∃ e, reply = Except.error e)
    | .write _ block contents => fun reply s' => s'.calls = s.calls + 1 ∧
        (block < E.size ∧ reply = Except.ok () ∧
            s'.disk = Function.update s.disk block contents ∨
          ¬ block < E.size ∧ reply = Except.error E.outOfRange ∧ s'.disk = s.disk ∨
          E.faults s.calls ∧ (∃ e, reply = Except.error e) ∧ (s'.disk = s.disk ∨
            block < E.size ∧ s'.disk = Function.update s.disk block contents))
  fail _ _ _ := False

/-- A device without faults, with nothing to keep. -/
def Env.perfect (size : Nat) (outOfRange : F) : Env B F :=
  ⟨size, outOfRange, fun _ => True, fun _ => False⟩

/-! ## Reading -/

/-- On `d`, `p` makes `k` reads and returns `r`, unless one of them fails. -/
def Reads (E : Env B F) (k : Nat) (p : BlockProg L B F ε α) (d : Nat → B) (r : Except ε α) :
    Prop :=
  ∀ c, p.run.wp (E.spec L) (fun r' s' => s'.disk = d ∧ (r' = r ∧ s'.calls = c + k ∨
    (∃ j, c ≤ j ∧ j < c + k ∧ E.faults j) ∧ ∃ e, r' = .error e)) (fun _ _ => False) ⟨d, c⟩

/-- The condition of a sequence, by the result of its first part. -/
theorem wp_bindCont {S ε' : Type} {Op : Type} {Reply : Op → Type} {spec : Spec Reply S ε'}
    (p : ExceptT ε (Prog Reply) α) (k : α → ExceptT ε (Prog Reply) β)
    {Q : Except ε β → S → Prop} {E : ε' → S → Prop} {s : S} :
    (p >>= k).run.wp spec Q E s ↔ p.run.wp spec (fun r s' =>
      match r with
      | .ok a => (k a).run.wp spec Q E s'
      | .error e => Q (.error e) s') E s := by
  refine (Prog.wp_bind p.run (ExceptT.bindCont k)).trans ?_
  have hcont : (fun r s' => (ExceptT.bindCont k r).wp spec Q E s') = fun r s' =>
      match r with
      | .ok a => (k a).run.wp spec Q E s'
      | .error e => Q (.error e) s' := by
    funext r s'
    cases r with
    | ok a => rfl
    | error e => rfl
  rw [hcont]

variable {k c : Nat} {d' : Nat → B} {log : List (Event (@BlockOp.Reply L B F))}

section Reads

variable {E : Env B F} {d : Nat → B} {p : BlockProg L B F ε α} {f : α → BlockProg L B F ε β}

theorem Reads.pure (a : α) : Reads E 0 (Pure.pure a : BlockProg L B F ε α) d (.ok a) := by
  intro c
  exact ⟨rfl, .inl ⟨rfl, rfl⟩⟩

theorem Reads.throw (e : ε) :
    Reads E 0 (MonadExcept.throw e : BlockProg L B F ε α) d (.error e) := by
  intro c
  exact ⟨rfl, .inl ⟨rfl, rfl⟩⟩

theorem Reads.ofExcept (r : Except ε α) :
    Reads E 0 (MonadExcept.ofExcept r : BlockProg L B F ε α) d r := by
  cases r with
  | ok a => exact Reads.pure a
  | error e => exact Reads.throw e

theorem Reads.readBlock (hd : E.inv d) (onError : F → ε) (label : L) (block : Nat) :
    Reads E 1 (Lib.readBlock onError label block : BlockProg L B F ε B) d ((E.answer d block).mapError onError) := by
  intro c
  refine ⟨hd, ?_, fun e he => he.elim⟩
  intro reply s' ⟨hcalls, hdisk, hreply⟩
  refine ⟨hdisk, ?_⟩
  rcases hreply with rfl | ⟨hfault, e, rfl⟩
  · exact .inl ⟨rfl, hcalls⟩
  · exact .inr ⟨⟨c, le_refl c, Nat.lt_succ_self c, hfault⟩, onError e, rfl⟩

theorem Reads.bind {l n : Nat} {a : α} {r : Except ε β} (hp : Reads E k p d (.ok a))
    (hf : Reads E l (f a) d r) (hn : k + l = n) : Reads E n (p >>= f) d r := by
  intro c
  rw [wp_bindCont]
  refine Prog.wp_mono (hp c) ?_ fun _ _ h => h
  intro r₁ s₁ ⟨hdisk, hr₁⟩
  obtain ⟨d₁, c₁⟩ := s₁
  obtain rfl : d₁ = d := hdisk
  rcases hr₁ with ⟨rfl, hcalls⟩ | ⟨⟨j, hj, hj', hfault⟩, e, rfl⟩
  · obtain rfl : c₁ = c + k := hcalls
    refine Prog.wp_mono (hf (c + k)) ?_ fun _ _ h => h
    intro r₂ s₂ ⟨hdisk₂, hr₂⟩
    refine ⟨hdisk₂, ?_⟩
    rcases hr₂ with ⟨rfl, hcalls₂⟩ | ⟨⟨j, hj, hj', hfault⟩, herr⟩
    · exact .inl ⟨rfl, by omega⟩
    · exact .inr ⟨⟨j, by omega, by omega, hfault⟩, herr⟩
  · exact ⟨rfl, .inr ⟨⟨j, hj, by omega, hfault⟩, e, rfl⟩⟩

theorem Reads.bind_error {e : ε} (hp : Reads E k p d (.error e)) :
    Reads E k (p >>= f) d (.error e) := by
  intro c
  rw [wp_bindCont]
  refine Prog.wp_mono (hp c) ?_ fun _ _ h => h
  intro r₁ s₁ ⟨hdisk, hr₁⟩
  rcases hr₁ with ⟨rfl, hcalls⟩ | ⟨hfault, e', rfl⟩
  · exact ⟨hdisk, .inl ⟨rfl, hcalls⟩⟩
  · exact ⟨hdisk, .inr ⟨hfault, e', rfl⟩⟩

end Reads

/-! ## Running -/

/-- From `d`, `p` returns `r` on `d'`, unless a call fails; every disk on the
way satisfies the invariant. -/
def Runs (E : Env B F) (p : BlockProg L B F ε α) (d : Nat → B) (r : Except ε α) (d' : Nat → B) :
    Prop :=
  ∀ c, p.run.wp (E.spec L) (fun r' s' => r' = r ∧ s'.disk = d' ∨
    (∃ j, E.faults j) ∧ (∃ e, r' = .error e) ∧ E.inv s'.disk) (fun _ _ => False) ⟨d, c⟩

section Runs

variable {E : Env B F} {d d₁ d₂ : Nat → B} {p : BlockProg L B F ε α} {f : α → BlockProg L B F ε β}

theorem Reads.runs {r : Except ε α} (h : Reads E k p d r) (hd : E.inv d) : Runs E p d r d := by
  intro c
  refine Prog.wp_mono (h c) ?_ fun _ _ h => h
  intro r' s' ⟨hdisk, hr⟩
  rcases hr with ⟨rfl, _⟩ | ⟨⟨j, _, _, hfault⟩, herr⟩
  · exact .inl ⟨rfl, hdisk⟩
  · exact .inr ⟨⟨j, hfault⟩, herr, by rw [hdisk]; exact hd⟩

theorem Runs.pure (a : α) : Runs E (Pure.pure a : BlockProg L B F ε α) d (.ok a) d := by
  intro c
  exact .inl ⟨rfl, rfl⟩

theorem Runs.throw (e : ε) :
    Runs E (MonadExcept.throw e : BlockProg L B F ε α) d (.error e) d := by
  intro c
  exact .inl ⟨rfl, rfl⟩

theorem Runs.bind {a : α} {r : Except ε β} (hp : Runs E p d (.ok a) d₁)
    (hf : Runs E (f a) d₁ r d₂) : Runs E (p >>= f) d r d₂ := by
  intro c
  rw [wp_bindCont]
  refine Prog.wp_mono (hp c) ?_ fun _ _ h => h
  intro r₁ s₁ hr₁
  obtain ⟨e₁, c₁⟩ := s₁
  rcases hr₁ with ⟨rfl, hdisk⟩ | ⟨hfault, ⟨e, rfl⟩, hinv⟩
  · obtain rfl : e₁ = d₁ := hdisk
    exact hf c₁
  · exact .inr ⟨hfault, ⟨e, rfl⟩, hinv⟩

theorem Runs.bind_error {e : ε} (hp : Runs E p d (.error e) d₁) :
    Runs E (p >>= f) d (.error e) d₁ := by
  intro c
  rw [wp_bindCont]
  refine Prog.wp_mono (hp c) ?_ fun _ _ h => h
  intro r₁ s₁ hr₁
  rcases hr₁ with ⟨rfl, hdisk⟩ | ⟨hfault, ⟨e', rfl⟩, hinv⟩
  · exact .inl ⟨rfl, hdisk⟩
  · exact .inr ⟨hfault, ⟨e', rfl⟩, hinv⟩

/-- On a device that may fail, an error that keeps the invariant is as good as
any other result. -/
theorem Runs.of_fault {e : ε} (hfault : ∃ j, E.faults j) (h : Runs E p d (.error e) d₁)
    (hd₁ : E.inv d₁) (r : Except ε α) (d' : Nat → B) : Runs E p d r d' := by
  intro c
  refine Prog.wp_mono (h c) ?_ fun _ _ h => h
  intro r' s' hr'
  rcases hr' with ⟨rfl, hdisk⟩ | hfailed
  · exact .inr ⟨hfault, ⟨e, rfl⟩, by rw [hdisk]; exact hd₁⟩
  · exact .inr hfailed

theorem Runs.writeBlock (hd : E.inv d) (onError : F → ε) (label : L) {block : Nat} (hblock : block < E.size)
    {contents : B} (hd' : E.inv (Function.update d block contents)) :
    Runs E (Lib.writeBlock onError label block contents) d (.ok ())
      (Function.update d block contents) := by
  intro c
  refine ⟨hd, ?_, fun e he => he.elim⟩
  intro reply s' ⟨_, hreply⟩
  rcases hreply with ⟨_, rfl, hdisk⟩ | ⟨hout, _⟩ | ⟨hfault, ⟨e, rfl⟩, hdisk⟩
  · exact .inl ⟨rfl, hdisk⟩
  · exact absurd hblock hout
  · refine .inr ⟨⟨c, hfault⟩, ⟨onError e, rfl⟩, ?_⟩
    rcases hdisk with hdisk | ⟨_, hdisk⟩
    · rw [hdisk]
      exact hd
    · rw [hdisk]
      exact hd'

/-- Loop rule: `disk i` is the disk after `i` rounds. -/
theorem Runs.forRange {body : Nat → BlockProg L B F ε Unit} {count : Nat} (disk : Nat → Nat → B)
    (hbody : ∀ i < count, Runs E (body i) (disk i) (.ok ()) (disk (i + 1))) :
    Runs E (Lib.forRange body count) (disk 0) (.ok ()) (disk count) := by
  have hgo : ∀ k i, i + k = count → Runs E (forRange.go body k i) (disk i) (.ok ())
      (disk count) := by
    intro k
    induction k with
    | zero =>
        intro i hi
        rw [Nat.add_zero] at hi
        rw [hi]
        exact Runs.pure ()
    | succ k ih =>
        intro i hi
        exact (hbody i (by omega)).bind (ih (i + 1) (by omega))
  exact hgo count 0 (Nat.zero_add _)

/-- `Runs` from a given call on. -/
def RunsFrom (E : Env B F) (c : Nat) (p : BlockProg L B F ε α) (d : Nat → B) (r : Except ε α)
    (d' : Nat → B) : Prop :=
  p.run.wp (E.spec L) (fun r' s' => r' = r ∧ s'.disk = d' ∨
    (∃ j, E.faults j) ∧ (∃ e, r' = .error e) ∧ E.inv s'.disk) (fun _ _ => False) ⟨d, c⟩

theorem Reads.bindFrom {a : α} {r : Except ε β} (hp : Reads E k p d (.ok a)) (hd : E.inv d)
    (hf : RunsFrom E (c + k) (f a) d r d₂) : RunsFrom E c (p >>= f) d r d₂ := by
  unfold RunsFrom
  rw [wp_bindCont]
  refine Prog.wp_mono (hp c) ?_ fun _ _ h => h
  intro r₁ s₁ ⟨hdisk, hr₁⟩
  obtain ⟨e₁, c₁⟩ := s₁
  obtain rfl : e₁ = d := hdisk
  rcases hr₁ with ⟨rfl, hcalls⟩ | ⟨⟨j, _, _, hfault⟩, e, rfl⟩
  · obtain rfl : c₁ = c + k := hcalls
    exact hf
  · exact .inr ⟨⟨j, hfault⟩, ⟨e, rfl⟩, hd⟩

/-- A program whose errors are looked at: it ends as on a device without faults,
or with some error because one of its reads failed. -/
theorem Reads.observe_bindFrom {r : Except ε α} {r₂ : Except ε β}
    {g : Except ε α → BlockProg L B F ε β} (hp : Reads E k p d r)
    (hok : RunsFrom E (c + k) (g r) d r₂ d₂)
    (hfault : (∃ j, c ≤ j ∧ j < c + k ∧ E.faults j) → ∀ e, Runs E (g (.error e)) d r₂ d₂) :
    RunsFrom E c (observe p >>= g) d r₂ d₂ := by
  unfold RunsFrom
  rw [wp_bindCont]
  unfold observe
  rw [ExceptT.run_mk, Prog.wp_bind]
  refine Prog.wp_mono (hp c) ?_ fun _ _ h => h
  intro r₁ s₁ ⟨hdisk, hr₁⟩
  obtain ⟨e₁, c₁⟩ := s₁
  obtain rfl : e₁ = d := hdisk
  rcases hr₁ with ⟨rfl, hcalls⟩ | ⟨hwindow, e, rfl⟩
  · obtain rfl : c₁ = c + k := hcalls
    exact hok
  · exact hfault hwindow e c₁

end Runs

/-! ## Fault-free runs -/

/-- A device that never fails. -/
def diskHandler (size : Nat) (outOfRange : F) :
    Handler (@BlockOp.Reply L B F) (Nat → B) Empty := fun op d =>
  match op with
  | .read _ block =>
      .ok ((if block < size then .ok (d block) else .error outOfRange : Except F B), d)
  | .write _ block contents =>
      if block < size then
        .ok ((.ok () : Except F Unit), fun i => if i = block then contents else d i)
      else .ok ((.error outOfRange : Except F Unit), d)

/-- The result of a run without faults. -/
def evaluate (size : Nat) (outOfRange : F) (p : BlockProg L B F ε α) (d : Nat → B) :
    Except ε α × (Nat → B) :=
  match (Prog.run (diskHandler size outOfRange) p.run d).2 with
  | .ok result => result
  | .error e => e.elim

theorem diskHandler_refines (L B : Type) (size : Nat) (outOfRange : F) :
    Refines (diskHandler size outOfRange) ((Env.perfect size outOfRange : Env B F).spec L)
      (fun d s => s.disk = d) := by
  intro d s op hd _
  subst hd
  refine .inl ?_
  cases op with
  | read label block => exact ⟨_, s.disk, ⟨s.disk, s.calls + 1⟩, rfl, ⟨rfl, rfl, .inl rfl⟩, rfl⟩
  | write label block contents =>
      by_cases hblock : block < size
      · have hset : (fun i => if i = block then contents else s.disk i) =
            Function.update s.disk block contents := by
          funext i
          rw [Function.update_apply]
        refine ⟨Except.ok (), Function.update s.disk block contents,
          ⟨Function.update s.disk block contents, s.calls + 1⟩, ?_,
          ⟨rfl, .inl ⟨hblock, rfl, rfl⟩⟩, rfl⟩
        rw [← hset]
        exact if_pos hblock
      · exact ⟨Except.error outOfRange, s.disk, ⟨s.disk, s.calls + 1⟩, if_neg hblock,
          ⟨rfl, .inr (.inl ⟨hblock, rfl, rfl⟩)⟩, rfl⟩

/-- A run without faults is what `RunsFrom` says. -/
theorem RunsFrom.evaluate {size : Nat} {outOfRange : F} {p : BlockProg L B F ε α} {d : Nat → B}
    {r : Except ε α} (h : RunsFrom (Env.perfect size outOfRange) c p d r d') :
    Lib.evaluate size outOfRange p d = (r, d') := by
  unfold Lib.evaluate
  rcases run_sound (diskHandler_refines L B size outOfRange) (s := ⟨d, c⟩) rfl h with
    ⟨log, r', c', s', hrun, _, hdisk, hpost⟩ | ⟨_, _, _, _, _, _, _, hfalse⟩
  · rw [hrun]
    rcases hpost with ⟨rfl, rfl⟩ | ⟨⟨_, hfault⟩, _⟩
    · rw [hdisk]
    · exact hfault.elim
  · exact hfalse.elim

theorem Runs.evaluate {size : Nat} {outOfRange : F} {p : BlockProg L B F ε α} {d : Nat → B}
    {r : Except ε α} (h : Runs (Env.perfect size outOfRange) p d r d') :
    Lib.evaluate size outOfRange p d = (r, d') :=
  RunsFrom.evaluate (h 0)

section Evaluate

variable (size : Nat) (outOfRange : F) (d : Nat → B)

@[simp] theorem evaluate_pure (a : α) :
    evaluate size outOfRange (pure a : BlockProg L B F ε α) d = (.ok a, d) := rfl

@[simp] theorem evaluate_throw (e : ε) :
    evaluate size outOfRange (throw e : BlockProg L B F ε α) d = (.error e, d) := rfl

@[simp] theorem evaluate_ofExcept (r : Except ε α) :
    evaluate size outOfRange (ofExcept r : BlockProg L B F ε α) d = (r, d) := by
  cases r with
  | ok a => rfl
  | error e => rfl

theorem evaluate_readBlock (onError : F → ε) (label : L) (block : Nat) :
    evaluate size outOfRange (readBlock onError label block : BlockProg L B F ε B) d =
      ((if block < size then .ok (d block) else .error (onError outOfRange)), d) := by
  show ((if block < size then Except.ok (d block) else .error outOfRange : Except F B).mapError
    onError, d) = _
  by_cases h : block < size
  · rw [if_pos h, if_pos h]
    rfl
  · rw [if_neg h, if_neg h]
    rfl

/-- The run of a single write. -/
theorem run_writeBlock (onError : F → ε) (label : L) (block : Nat) (contents : B) :
    ∃ reply, Prog.run (diskHandler size outOfRange)
        (writeBlock onError label block contents).run d =
      ([⟨.write label block contents, reply⟩],
        .ok (if block < size then (.ok (), Function.update d block contents)
          else (.error (onError outOfRange), d))) := by
  by_cases h : block < size
  · have hset : (fun i => if i = block then contents else d i) =
        Function.update d block contents := by
      funext i
      rw [Function.update_apply]
    have hcall : diskHandler size outOfRange (.write label block contents) d =
        .ok (Except.ok (), Function.update d block contents) := by
      rw [← hset]
      exact if_pos h
    rw [if_pos h]
    exact ⟨_, Prog.run_call hcall _⟩
  · have hcall : diskHandler size outOfRange (.write label block contents) d =
        .ok (Except.error outOfRange, d) := if_neg h
    rw [if_neg h]
    exact ⟨_, Prog.run_call hcall _⟩

theorem evaluate_writeBlock (onError : F → ε) (label : L) (block : Nat) (contents : B) :
    evaluate size outOfRange (writeBlock onError label block contents) d =
      if block < size then (.ok (), Function.update d block contents)
      else (.error (onError outOfRange), d) := by
  obtain ⟨reply, hrun⟩ := run_writeBlock size outOfRange d onError label block contents
  rw [evaluate, hrun]

/-- The run of a sequence. -/
theorem run_bindCont (p : BlockProg L B F ε α) (f : α → BlockProg L B F ε β) :
    Prog.run (diskHandler size outOfRange) (p >>= f).run d =
      match evaluate size outOfRange p d with
      | (.ok a, d') =>
          ((Prog.run (diskHandler size outOfRange) p.run d).1 ++
            (Prog.run (diskHandler size outOfRange) (f a).run d').1,
            (Prog.run (diskHandler size outOfRange) (f a).run d').2)
      | (.error e, d') =>
          ((Prog.run (diskHandler size outOfRange) p.run d).1, .ok (.error e, d')) := by
  refine (Prog.run_bind (diskHandler size outOfRange) p.run (ExceptT.bindCont f) d).trans ?_
  unfold evaluate
  rcases Prog.run (diskHandler size outOfRange) p.run d with ⟨log, result⟩
  cases result with
  | error e => exact e.elim
  | ok result =>
      obtain ⟨r, d'⟩ := result
      cases r with
      | ok a => rfl
      | error e =>
          show (log ++ [], _) = (log, _)
          rw [List.append_nil]
          rfl

theorem evaluate_bind (p : BlockProg L B F ε α) (f : α → BlockProg L B F ε β) :
    evaluate size outOfRange (p >>= f) d =
      match evaluate size outOfRange p d with
      | (.ok a, d') => evaluate size outOfRange (f a) d'
      | (.error e, d') => (.error e, d') := by
  rw [evaluate, run_bindCont]
  rcases evaluate size outOfRange p d with ⟨r, d'⟩
  cases r with
  | ok a => rfl
  | error e => rfl

variable {size outOfRange d}

theorem evaluate_bind_ok {p : BlockProg L B F ε α} {a : α}
    (h : evaluate size outOfRange p d = (.ok a, d')) (f : α → BlockProg L B F ε β) :
    evaluate size outOfRange (p >>= f) d = evaluate size outOfRange (f a) d' := by
  rw [evaluate_bind, h]

theorem evaluate_bind_error {p : BlockProg L B F ε α} {e : ε}
    (h : evaluate size outOfRange p d = (.error e, d')) (f : α → BlockProg L B F ε β) :
    evaluate size outOfRange (p >>= f) d = (.error e, d') := by
  rw [evaluate_bind, h]

end Evaluate

/-! ## Executions -/

/-- Wherever an execution ends, the disk satisfies the invariant. -/
theorem inv_of_exec {E : Env B F} {p : BlockProg L B F ε α} {Q : Except ε α → DeviceState B → Prop}
    {s s' : DeviceState B} {o : Outcome Empty (Except ε α)}
    (hexec : Exec (E.spec L) p.run s log o s') (hwp : p.run.wp (E.spec L) Q (fun _ _ => False) s)
    (hQ : ∀ r s', Q r s' → E.inv s'.disk) : E.inv s'.disk := by
  have hmeets := wp_sound hexec hwp
  cases o with
  | returned r => exact hQ r s' hmeets
  | panicked e => exact hmeets.elim
  | stopped =>
      rcases hmeets with ⟨_, hpre⟩ | ⟨r, hr⟩
      · exact hpre
      · exact hQ r s' hr

/-- The device does not know the invariant. -/
theorem exec_of_inv {E : Env B F} {inv : (Nat → B) → Prop} {p : Prog (@BlockOp.Reply L B F) α}
    {s s' : DeviceState B} {o : Outcome Empty α}
    (hexec : Exec (({ E with inv := inv } : Env B F).spec L) p s log o s') :
    Exec (E.spec L) p s log o s' := by
  refine hexec.mono (fun s op r s' h => ?_) fun s op e h => h.elim
  cases op with
  | read label block => exact h
  | write label block contents => exact h

/-- A program that keeps an invariant keeps it in every execution on the device. -/
theorem RunsFrom.exec {E : Env B F} {p : BlockProg L B F ε α} {d : Nat → B} {r : Except ε α}
    (h : RunsFrom E c p d r d') (hd' : E.inv d') {inv : (Nat → B) → Prop} {s' : DeviceState B}
    {o : Outcome Empty (Except ε α)}
    (hexec : Exec (({ E with inv := inv } : Env B F).spec L) p.run ⟨d, c⟩ log o s') :
    E.inv s'.disk := by
  refine inv_of_exec (exec_of_inv hexec) h fun r' s' hpost => ?_
  rcases hpost with ⟨_, hdisk⟩ | ⟨_, _, hinv⟩
  · rw [hdisk]
    exact hd'
  · exact hinv

section CanEnd

variable {E : Env B F} {p : BlockProg L B F ε α} {f : α → BlockProg L B F ε β}
  {s s' s'' : DeviceState B}

/-- Some execution of `p` from `s` returns `r` in `s'`. -/
def CanEnd (E : Env B F) (p : BlockProg L B F ε α) (s : DeviceState B) (r : Except ε α)
    (s' : DeviceState B) : Prop := ∃ log, Exec (E.spec L) p.run s log (.returned r) s'

theorem CanEnd.ofExcept (r : Except ε α) (s : DeviceState B) :
    CanEnd E (MonadExcept.ofExcept r : BlockProg L B F ε α) s r s := by
  cases r with
  | ok a => exact ⟨[], .done _ _⟩
  | error e => exact ⟨[], .done _ _⟩

theorem CanEnd.bind {a : α} {r : Except ε β} (h : CanEnd E p s (.ok a) s')
    (hf : CanEnd E (f a) s' r s'') : CanEnd E (p >>= f) s r s'' := by
  obtain ⟨log, hp⟩ := h
  obtain ⟨log', hrest⟩ := hf
  exact ⟨_, Exec.bind (f := ExceptT.bindCont f) hp hrest⟩

theorem CanEnd.bind_error {e : ε} (h : CanEnd E p s (.error e) s') :
    CanEnd E (p >>= f) s (.error e) s' := by
  obtain ⟨log, hp⟩ := h
  have hrest : Exec (E.spec L) (ExceptT.bindCont f (.error e)) s' [] (.returned (.error e)) s' :=
    .done _ _
  exact ⟨_, Exec.bind hp hrest⟩

theorem CanEnd.observe {r : Except ε α} (h : CanEnd E p s r s') :
    CanEnd E (Lib.observe p) s (.ok r) s' := by
  obtain ⟨log, hp⟩ := h
  have hrest : Exec (E.spec L) (pure (.ok r) : Prog (@BlockOp.Reply L B F)
      (Except ε (Except ε α))) s' [] (.returned (.ok r)) s' := .done _ _
  exact ⟨_, Exec.bind (f := fun r => pure (Except.ok r)) hp hrest⟩

/-- A read that the device may fail. -/
theorem CanEnd.readBlock_fault {d : Nat → B} (hfault : E.faults c) (onError : F → ε) (label : L)
    (block : Nat) (e : F) :
    CanEnd E (readBlock onError label block) ⟨d, c⟩ (.error (onError e)) ⟨d, c + 1⟩ := by
  have hreply : (E.spec L).post ⟨d, c⟩ (.read label block) (Except.error e) ⟨d, c + 1⟩ :=
    ⟨rfl, rfl, .inr ⟨hfault, e, rfl⟩⟩
  exact ⟨_, .call hreply (.done _ _)⟩

/-- Faults only add executions. -/
theorem CanEnd.of_perfect {r : Except ε α}
    (h : CanEnd (Env.perfect E.size E.outOfRange) p s r s') : CanEnd E p s r s' := by
  obtain ⟨log, hexec⟩ := h
  refine ⟨log, hexec.mono (fun s op r s' hpost => ?_) fun s op e he => he.elim⟩
  cases op with
  | read label block =>
      obtain ⟨hcalls, hdisk, hreply | ⟨hfault, _⟩⟩ := hpost
      · exact ⟨hcalls, hdisk, .inl hreply⟩
      · exact hfault.elim
  | write label block contents =>
      obtain ⟨hcalls, hdone | hout | ⟨hfault, _⟩⟩ := hpost
      · exact ⟨hcalls, .inl hdone⟩
      · exact ⟨hcalls, .inr (.inl hout)⟩
      · exact hfault.elim

theorem canEnd_perfect (size : Nat) (outOfRange : F) (p : BlockProg L B F ε α) (d : Nat → B)
    (c : Nat) : ∃ c', CanEnd (Env.perfect size outOfRange) p ⟨d, c⟩ (evaluate size outOfRange p d).1
      ⟨(evaluate size outOfRange p d).2, c'⟩ := by
  unfold evaluate
  rcases hrun : Prog.run (diskHandler size outOfRange) p.run d with ⟨log, result⟩
  cases result with
  | error e => exact e.elim
  | ok result =>
      obtain ⟨⟨d', c'⟩, hexec, hdisk⟩ := exec_of_run (diskHandler_refines L B size outOfRange)
        (fun _ _ => trivial) (s := ⟨d, c⟩) rfl hrun
      obtain rfl : d' = result.2 := hdisk
      exact ⟨c', log, hexec⟩

/-- What a program does on a device without faults, it can do on any. -/
theorem canEnd_evaluate (E : Env B F) (p : BlockProg L B F ε α) (d : Nat → B) (c : Nat) :
    ∃ c', CanEnd E p ⟨d, c⟩ (evaluate E.size E.outOfRange p d).1
      ⟨(evaluate E.size E.outOfRange p d).2, c'⟩ := by
  obtain ⟨c', h⟩ := canEnd_perfect E.size E.outOfRange p d c
  exact ⟨c', .of_perfect h⟩

theorem Reads.canEnd {d : Nat → B} {r : Except ε α}
    (h : Reads (Env.perfect E.size E.outOfRange) k p d r) (c : Nat) :
    CanEnd E p ⟨d, c⟩ r ⟨d, c + k⟩ := by
  obtain ⟨c', log, hexec⟩ := canEnd_perfect E.size E.outOfRange p d c
  obtain ⟨hdisk, ⟨hr, hcalls⟩ | ⟨⟨_, _, _, hfault⟩, _⟩⟩ := wp_sound hexec (h c)
  · obtain rfl : c' = c + k := hcalls
    rw [hr, show (evaluate E.size E.outOfRange p d).2 = d from hdisk] at hexec
    exact .of_perfect ⟨log, hexec⟩
  · exact hfault.elim

theorem Runs.canEnd {d : Nat → B} {r : Except ε α}
    (h : Runs (Env.perfect E.size E.outOfRange) p d r d') (c : Nat) :
    ∃ c', CanEnd E p ⟨d, c⟩ r ⟨d', c'⟩ := by
  obtain ⟨c', hend⟩ := canEnd_evaluate E p d c
  rw [h.evaluate] at hend
  exact ⟨c', hend⟩

end CanEnd

end GenericKernel.Lib
