import GenericKernel.Lib.BlockProgram

/-!
# Triples for programs over a failing device

`Triple E P p Q`: from every disk that satisfies `P`, whichever calls the device
fails, `p` keeps the environment's invariant before every call and when it stops
with an error, and a result `a` comes with a disk that satisfies `Q a`.

* one rule for each way to build a program, and the loop rule;
* `Reads.triple`, `Runs.triple` — what is known of a single disk, as a triple;
* `Triple.exec` — every execution, cut off or not, keeps the invariant.
-/

namespace GenericKernel.Lib

variable {L B F ε α β : Type} {E : Env B F}

/-- From `P`, `p` keeps the invariant and ends in `Q`. -/
def Triple (E : Env B F) (P : (Nat → B) → Prop) (p : BlockProg L B F ε α)
    (Q : α → (Nat → B) → Prop) : Prop :=
  ∀ d c, P d → p.run.wp (E.spec L) (fun r s' =>
    match r with
    | .ok a => Q a s'.disk
    | .error _ => E.inv s'.disk) (fun _ _ => False) ⟨d, c⟩

variable {P P' : (Nat → B) → Prop} {p : BlockProg L B F ε α} {f : α → BlockProg L B F ε β}

theorem Triple.conseq {Q Q' : α → (Nat → B) → Prop} (h : Triple E P p Q) (hP : ∀ d, P' d → P d)
    (hQ : ∀ a d, Q a d → Q' a d) : Triple E P' p Q' := by
  intro d c hd
  refine Prog.wp_mono (h d c (hP d hd)) ?_ fun _ _ h => h
  intro r s' hr
  cases r with
  | ok a => exact hQ a _ hr
  | error e => exact hr

/-- A fact that does not depend on the disk. -/
theorem Triple.intro {φ : Prop} {Q : α → (Nat → B) → Prop} (h : φ → Triple E P p Q) :
    Triple E (fun d => φ ∧ P d) p Q := fun d c hd => h hd.1 d c hd.2

theorem Triple.pure {Q : α → (Nat → B) → Prop} {a : α} (h : ∀ d, P d → Q a d) :
    Triple E P (Pure.pure a : BlockProg L B F ε α) Q := fun d _ hd => h d hd

theorem Triple.throw {Q : α → (Nat → B) → Prop} {e : ε} (h : ∀ d, P d → E.inv d) :
    Triple E P (MonadExcept.throw e : BlockProg L B F ε α) Q := fun d _ hd => h d hd

theorem Triple.bind {R : α → (Nat → B) → Prop} {Q : β → (Nat → B) → Prop} (h : Triple E P p R)
    (hf : ∀ a, Triple E (R a) (f a) Q) : Triple E P (p >>= f) Q := by
  intro d c hd
  rw [wp_bindCont]
  refine Prog.wp_mono (h d c hd) ?_ fun _ _ h => h
  intro r s' hr
  cases r with
  | ok a => exact hf a s'.disk s'.calls hr
  | error e => exact hr

theorem Triple.readBlock (h : ∀ d, P d → E.inv d) (onError : F → ε) (label : L) (block : Nat) :
    Triple E P (Lib.readBlock onError label block)
      (fun b d => P d ∧ block < E.size ∧ b = d block) := by
  intro d c hd
  refine ⟨h d hd, fun reply s' hpost => ?_, fun e he => he.elim⟩
  obtain ⟨_, hdisk, hreply⟩ := hpost
  have hinv : E.inv s'.disk := by
    rw [hdisk]
    exact h d hd
  rcases hreply with rfl | ⟨_, e, rfl⟩
  · unfold Env.answer
    by_cases hblock : block < E.size
    · rw [if_pos hblock]
      show P s'.disk ∧ block < E.size ∧ d block = s'.disk block
      rw [hdisk]
      exact ⟨hd, hblock, rfl⟩
    · rw [if_neg hblock]
      exact hinv
  · exact hinv

theorem Triple.writeBlock {Q : Unit → (Nat → B) → Prop} (h : ∀ d, P d → E.inv d)
    (hQ : ∀ d, Q () d → E.inv d) (onError : F → ε) (label : L) (block : Nat) {contents : B}
    (hwrite : ∀ d, P d → block < E.size → Q () (Function.update d block contents)) :
    Triple E P (Lib.writeBlock onError label block contents) Q := by
  intro d c hd
  refine ⟨h d hd, fun reply s' hpost => ?_, fun e he => he.elim⟩
  obtain ⟨_, ⟨hblock, rfl, hdisk⟩ | ⟨_, rfl, hdisk⟩ | ⟨_, ⟨e, rfl⟩, hdisk⟩⟩ := hpost
  · show Q () s'.disk
    rw [hdisk]
    exact hwrite d hd hblock
  · show E.inv s'.disk
    rw [hdisk]
    exact h d hd
  · show E.inv s'.disk
    rcases hdisk with hdisk | ⟨hblock, hdisk⟩
    · rw [hdisk]
      exact h d hd
    · rw [hdisk]
      exact hQ _ (hwrite d hd hblock)

/-- Loop rule. -/
theorem Triple.forRange {body : Nat → BlockProg L B F ε Unit} {count : Nat}
    (hbody : ∀ i < count, Triple E P (body i) (fun _ => P)) :
    Triple E P (Lib.forRange body count) (fun _ => P) := by
  have hgo : ∀ k i, i + k = count → Triple E P (forRange.go body k i) (fun _ => P) := by
    intro k
    induction k with
    | zero => exact fun i _ => Triple.pure fun _ hd => hd
    | succ k ih =>
        intro i hi
        exact (hbody i (by omega)).bind fun _ => ih (i + 1) (by omega)
  exact hgo count 0 (Nat.zero_add _)

/-- A program that only reads. -/
theorem Reads.triple {Q : α → (Nat → B) → Prop} (h : ∀ d, P d → E.inv d)
    (hp : ∀ d, P d → ∃ k r, Reads E k p d r ∧ ∀ a, r = .ok a → Q a d) : Triple E P p Q := by
  intro d c hd
  obtain ⟨k, r, hreads, hr⟩ := hp d hd
  refine Prog.wp_mono (hreads c) ?_ fun _ _ h => h
  intro r' s' ⟨hdisk, hresult⟩
  rcases hresult with ⟨rfl, _⟩ | ⟨_, e, rfl⟩
  · rw [hdisk]
    cases hr' : r' with
    | ok a => exact hr a hr'
    | error e => exact h d hd
  · show E.inv s'.disk
    rw [hdisk]
    exact h d hd

/-- A program whose effect is known. -/
theorem Runs.triple {Q : α → (Nat → B) → Prop}
    (hp : ∀ d, P d → ∃ r d', Runs E p d r d' ∧ E.inv d' ∧ ∀ a, r = .ok a → Q a d') :
    Triple E P p Q := by
  intro d c hd
  obtain ⟨r, d', hruns, hinv, hr⟩ := hp d hd
  refine Prog.wp_mono (hruns c) ?_ fun _ _ h => h
  intro r' s' hresult
  rcases hresult with ⟨rfl, hdisk⟩ | ⟨_, ⟨e, rfl⟩, hfailed⟩
  · rw [hdisk]
    cases hr' : r' with
    | ok a => exact hr a hr'
    | error e => exact hinv
  · exact hfailed

/-- **Soundness**: wherever an execution ends, the invariant holds. -/
theorem Triple.exec {Q : α → (Nat → B) → Prop} (h : Triple E P p Q) (hQ : ∀ a d, Q a d → E.inv d)
    {d : Nat → B} (hd : P d) {c : Nat} {inv : (Nat → B) → Prop} {s' : DeviceState B}
    {log : List (Event (@BlockOp.Reply L B F))} {o : Outcome Empty (Except ε α)}
    (hexec : Exec (({ E with inv := inv } : Env B F).spec L) p.run ⟨d, c⟩ log o s') :
    E.inv s'.disk := by
  refine inv_of_exec (exec_of_inv hexec) (h d c hd) fun r s' hr => ?_
  cases r with
  | ok a => exact hQ a _ hr
  | error e => exact hr

end GenericKernel.Lib
