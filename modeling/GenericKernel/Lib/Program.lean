import Mathlib

/-!
# Programs over an operation interface

A program is a tree of calls to operations whose replies it does not control.
The interface is a type of operations with a reply type each; what the replies
are, and what a call does to the world, is left to the environment.

* `Spec` — an environment: what a call requires, how it may reply, how it may
  panic;
* `Prog.wp` — the condition under which a program is sure to end in a
  postcondition, with its sequencing, weakening and loop rules;
* `Exec` — the executions of a program, cut off at any call;
* `wp_sound` — every execution respects the condition, also a cut-off one;
* `Handler`, `Prog.run`, `run_sound` — the same for a deterministic
  implementation that refines an environment.
-/

namespace GenericKernel.Lib

variable {Op : Type} {Reply : Op → Type} {α β S σ ε : Type}

/-- A program that calls operations and ends with a value. -/
inductive Prog (Reply : Op → Type) (α : Type) : Type
  | done (a : α) : Prog Reply α
  | call (op : Op) (k : Reply op → Prog Reply α) : Prog Reply α

namespace Prog

def bind : Prog Reply α → (α → Prog Reply β) → Prog Reply β
  | .done a, f => f a
  | .call op k, f => .call op fun r => (k r).bind f

instance : Monad (Prog Reply) where
  pure := Prog.done
  bind := Prog.bind

/-- One call. -/
def perform (op : Op) : Prog Reply (Reply op) := .call op .done

/-- Run `f` over the list, front to back. -/
def forEach (f : β → Prog Reply Unit) : List β → Prog Reply Unit
  | [] => .done ()
  | b :: bs => do
      f b
      forEach f bs

end Prog

/-- An environment: what a call requires, how it may reply and change the
state, and when it may panic instead. -/
structure Spec (Reply : Op → Type) (S ε : Type) where
  pre : S → Op → Prop
  post : S → (op : Op) → Reply op → S → Prop
  fail : S → Op → ε → Prop

/-- A call and its reply. -/
structure Event (Reply : Op → Type) where
  op : Op
  reply : Reply op

namespace Prog

/-! ## Weakest preconditions -/

/-- Every call meets its requirement, every value returned satisfies `Q`, and
every panic `E`. -/
def wp (spec : Spec Reply S ε) : Prog Reply α → (α → S → Prop) → (ε → S → Prop) → S → Prop
  | .done a, Q, _, s => Q a s
  | .call op k, Q, E, s =>
      spec.pre s op ∧ (∀ r s', spec.post s op r s' → (k r).wp spec Q E s') ∧
        ∀ e, spec.fail s op e → E e s

variable {spec : Spec Reply S ε} {Q Q' : α → S → Prop} {E E' : ε → S → Prop} {s : S}

@[simp] theorem wp_pure (a : α) : (pure a : Prog Reply α).wp spec Q E s ↔ Q a s := Iff.rfl

@[simp] theorem wp_done (a : α) : (Prog.done a : Prog Reply α).wp spec Q E s ↔ Q a s := Iff.rfl

@[simp] theorem wp_perform (op : Op) {Q : Reply op → S → Prop} :
    (perform op : Prog Reply _).wp spec Q E s ↔
      spec.pre s op ∧ (∀ r s', spec.post s op r s' → Q r s') ∧
        ∀ e, spec.fail s op e → E e s := Iff.rfl

/-- Sequencing: the second program runs in the postcondition of the first. -/
@[simp] theorem wp_bind (p : Prog Reply α) (f : α → Prog Reply β) {Q : β → S → Prop} :
    (p >>= f).wp spec Q E s ↔ p.wp spec (fun a s' => (f a).wp spec Q E s') E s := by
  show (p.bind f).wp spec Q E s ↔ _
  induction p generalizing s with
  | done a => exact Iff.rfl
  | call op k ih => simp only [Prog.bind, wp, ih]

/-- Weakening. -/
theorem wp_mono {p : Prog Reply α} (h : p.wp spec Q E s) (hQ : ∀ a s', Q a s' → Q' a s')
    (hE : ∀ e s', E e s' → E' e s') : p.wp spec Q' E' s := by
  induction p generalizing s with
  | done a => exact hQ a s h
  | call op k ih =>
      obtain ⟨hpre, hpost, hfail⟩ := h
      exact ⟨hpre, fun r s' hs' => ih r (hpost r s' hs'), fun e he => hE e s (hfail e he)⟩

/-- Loop rule: an invariant indexed by the items already handled. -/
theorem wp_forEach {f : β → Prog Reply Unit} (I : List β → S → Prop) {items : List β}
    (hstart : I [] s)
    (hstep : ∀ before b after s', items = before ++ b :: after → I before s' →
      (f b).wp spec (fun _ s'' => I (before ++ [b]) s'') E s') :
    (forEach f items).wp spec (fun _ s' => I items s') E s := by
  have hmain : ∀ (after before : List β) (s : S), items = before ++ after → I before s →
      (forEach f after).wp spec (fun _ s' => I items s') E s := by
    intro after
    induction after with
    | nil =>
        intro before s hitems hI
        rw [List.append_nil] at hitems
        rw [hitems]
        exact hI
    | cons b after ih =>
        intro before s hitems hI
        rw [forEach, wp_bind]
        refine wp_mono (hstep before b after s hitems hI) ?_ fun _ _ he => he
        intro _ s' hI'
        exact ih (before ++ [b]) s' (by rw [hitems, List.append_assoc]; rfl) hI'
  exact hmain items [] s rfl hstart

end Prog

/-! ## Executions -/

/-- How an execution ends: with a value, with a panic, or cut off between two
calls. -/
inductive Outcome (ε α : Type)
  | returned (a : α)
  | panicked (e : ε)
  | stopped

/-- The executions of a program in an environment, with the calls made. -/
inductive Exec (spec : Spec Reply S ε) :
    Prog Reply α → S → List (Event Reply) → Outcome ε α → S → Prop
  | done (a : α) (s : S) : Exec spec (.done a) s [] (.returned a) s
  | stop (p : Prog Reply α) (s : S) : Exec spec p s [] .stopped s
  | call {op : Op} {k : Reply op → Prog Reply α} {s s' s'' : S} {r : Reply op}
      {log : List (Event Reply)} {o : Outcome ε α} :
      spec.post s op r s' → Exec spec (k r) s' log o s'' →
      Exec spec (.call op k) s (⟨op, r⟩ :: log) o s''
  | fail {op : Op} {k : Reply op → Prog Reply α} {s : S} {e : ε} :
      spec.fail s op e → Exec spec (.call op k) s [] (.panicked e) s

/-- An environment that allows more has more executions; what the calls require
does not matter. -/
theorem Exec.mono {spec spec' : Spec Reply S ε} {p : Prog Reply α} {s s' : S}
    {log : List (Event Reply)} {o : Outcome ε α} (h : Exec spec p s log o s')
    (hpost : ∀ s op r s', spec.post s op r s' → spec'.post s op r s')
    (hfail : ∀ s op e, spec.fail s op e → spec'.fail s op e) : Exec spec' p s log o s' := by
  induction h with
  | done a s => exact .done a s
  | stop p s => exact .stop p s
  | call hcall _ ih => exact .call (hpost _ _ _ _ hcall) ih
  | fail hcall => exact .fail (hfail _ _ _ hcall)

/-- The executions of a sequence. -/
theorem Exec.bind {spec : Spec Reply S ε} {p : Prog Reply α} {f : α → Prog Reply β} {s s' s'' : S}
    {log log' : List (Event Reply)} {a : α} {o : Outcome ε β}
    (h : Exec spec p s log (.returned a) s') (hf : Exec spec (f a) s' log' o s'') :
    Exec spec (p >>= f) s (log ++ log') o s'' := by
  show Exec spec (p.bind f) s (log ++ log') o s''
  induction p generalizing s log with
  | done b =>
      cases h
      exact hf
  | call op k ih =>
      cases h with
      | call hpost hrest => exact .call hpost (ih _ hrest)

/-- What `wp` promises of each outcome; an execution that is cut off stops
before a call whose requirement holds, or with a value. -/
def Outcome.Meets (spec : Spec Reply S ε) (Q : α → S → Prop) (E : ε → S → Prop) :
    Outcome ε α → S → Prop
  | .returned a, s => Q a s
  | .panicked e, s => E e s
  | .stopped, s => (∃ op, spec.pre s op) ∨ ∃ a, Q a s

/-- **Soundness of `wp`**, for complete and cut-off executions. -/
theorem wp_sound {spec : Spec Reply S ε} {p : Prog Reply α} {Q : α → S → Prop}
    {E : ε → S → Prop} {s s' : S} {log : List (Event Reply)} {o : Outcome ε α}
    (hexec : Exec spec p s log o s') (hwp : p.wp spec Q E s) : o.Meets spec Q E s' := by
  induction hexec with
  | done a s => exact hwp
  | stop p s =>
      cases p with
      | done a => exact .inr ⟨a, hwp⟩
      | call op k => exact .inl ⟨op, hwp.1⟩
  | call hpost _ ih => exact ih (hwp.2.1 _ _ hpost)
  | fail hfail => exact hwp.2.2 _ hfail

/-- The same environment, whose failures all satisfy `K`. -/
def Spec.panics (spec : Spec Reply S ε) (K : ε → Prop) : Spec Reply S ε :=
  { spec with fail := fun s op e => spec.fail s op e ∧ K e }

/-- What every failure satisfies holds of a panic. -/
theorem Prog.wp_panics {spec : Spec Reply S ε} (K : ε → Prop) {p : Prog Reply α}
    {Q : α → S → Prop} {E : ε → S → Prop} {s : S} (h : p.wp spec Q E s) :
    p.wp (spec.panics K) Q (fun e s => E e s ∧ K e) s := by
  induction p generalizing s with
  | done a => exact h
  | call op k ih =>
      obtain ⟨hpre, hpost, hfail⟩ := h
      exact ⟨hpre, fun r s' hr => ih r (hpost r s' hr), fun e he => ⟨hfail e he.1, he.2⟩⟩

/-- The calls of an execution, each meeting its requirement. -/
inductive Spec.Trace (spec : Spec Reply S ε) : S → List (Event Reply) → S → Prop
  | nil (s : S) : Trace spec s [] s
  | cons {s s' s'' : S} {op : Op} {r : Reply op} {log : List (Event Reply)} :
      spec.pre s op → spec.post s op r s' → Trace spec s' log s'' →
      Trace spec s (⟨op, r⟩ :: log) s''

/-- Every call of a trace was made in a state that met its requirement. -/
theorem Spec.Trace.split {spec : Spec Reply S ε} {s s' : S} {before after : List (Event Reply)}
    {e : Event Reply} (h : spec.Trace s (before ++ e :: after) s') :
    ∃ s₁, spec.Trace s before s₁ ∧ spec.pre s₁ e.op := by
  induction before generalizing s with
  | nil =>
      cases h with
      | cons hpre _ _ => exact ⟨s, .nil s, hpre⟩
  | cons b before ih =>
      cases h with
      | cons hpre hpost hrest =>
          obtain ⟨s₁, htrace, hpre₁⟩ := ih hrest
          exact ⟨s₁, .cons hpre hpost htrace, hpre₁⟩

/-! ## Deterministic implementations -/

/-- An implementation of the operations over its own state; it may panic. -/
abbrev Handler (Reply : Op → Type) (σ ε : Type) := (op : Op) → σ → Except ε (Reply op × σ)

/-- Run a program on an implementation: the calls made, and the result. -/
def Prog.run (h : Handler Reply σ ε) :
    Prog Reply α → σ → List (Event Reply) × Except ε (α × σ)
  | .done a, c => ([], .ok (a, c))
  | .call op k, c =>
      match h op c with
      | .error e => ([], .error e)
      | .ok (r, c') =>
          let (log, result) := (k r).run h c'
          (⟨op, r⟩ :: log, result)

theorem Prog.run_call {h : Handler Reply σ ε} {op : Op} {c c' : σ} {r : Reply op}
    (hr : h op c = .ok (r, c')) (k : Reply op → Prog Reply α) :
    (Prog.call op k).run h c =
      (⟨op, r⟩ :: ((k r).run h c').1, ((k r).run h c').2) := by
  rw [Prog.run, hr]

/-- The run of a sequence. -/
theorem Prog.run_bind (h : Handler Reply σ ε) (p : Prog Reply α) (f : α → Prog Reply β) (c : σ) :
    (p >>= f).run h c =
      match p.run h c with
      | (log, .error e) => (log, .error e)
      | (log, .ok (a, c')) => (log ++ ((f a).run h c').1, ((f a).run h c').2) := by
  show (p.bind f).run h c = _
  induction p generalizing c with
  | done a => rfl
  | call op k ih =>
      rw [Prog.bind, Prog.run, Prog.run]
      cases h op c with
      | error e => rfl
      | ok reply =>
          obtain ⟨r, c'⟩ := reply
          dsimp only
          rw [ih]
          rcases Prog.run h (k r) c' with ⟨log, result⟩
          cases result with
          | error e => rfl
          | ok result => rfl

/-- The implementation answers every call the environment allows as the
environment does, with `R` relating the two states. -/
def Refines (h : Handler Reply σ ε) (spec : Spec Reply S ε) (R : σ → S → Prop) : Prop :=
  ∀ c s op, R c s → spec.pre s op →
    (∃ r c' s', h op c = .ok (r, c') ∧ spec.post s op r s' ∧ R c' s') ∨
    (∃ e, h op c = .error e ∧ spec.fail s op e)

/-- The run of an implementation is an execution, if calls require nothing. -/
theorem exec_of_run {h : Handler Reply σ ε} {spec : Spec Reply S ε} {R : σ → S → Prop}
    (href : Refines h spec R) (hpre : ∀ s op, spec.pre s op) {p : Prog Reply α}
    {log : List (Event Reply)} {a : α} {c c' : σ} {s : S} (hR : R c s)
    (hrun : p.run h c = (log, .ok (a, c'))) :
    ∃ s', Exec spec p s log (.returned a) s' ∧ R c' s' := by
  induction p generalizing c s log with
  | done b =>
      obtain ⟨rfl, h'⟩ := Prod.mk.inj hrun
      obtain ⟨rfl, rfl⟩ := Prod.mk.inj (Except.ok.inj h')
      exact ⟨s, .done b s, hR⟩
  | call op k ih =>
      rcases href c s op hR (hpre s op) with ⟨r, c₁, s₁, hok, hr, hR₁⟩ | ⟨e, herr, _⟩
      · rw [Prog.run_call hok] at hrun
        obtain ⟨rfl, hrest⟩ := Prod.mk.inj hrun
        obtain ⟨s', hexec, hR'⟩ := ih r hR₁ (Prod.ext rfl hrest)
        exact ⟨s', .call hr hexec, hR'⟩
      · rw [Prog.run, herr] at hrun
        exact nomatch (Prod.mk.inj hrun).2

/-- **Soundness for implementations**: a run ends in the postcondition or in a
permitted panic, its calls form a trace of the environment, and the two states
are still related where it ends. -/
theorem run_sound {h : Handler Reply σ ε} {spec : Spec Reply S ε} {R : σ → S → Prop}
    (href : Refines h spec R) {p : Prog Reply α} {Q : α → S → Prop} {E : ε → S → Prop}
    {c : σ} {s : S} (hR : R c s) (hwp : p.wp spec Q E s) :
    (∃ log a c' s', p.run h c = (log, .ok (a, c')) ∧ spec.Trace s log s' ∧ R c' s' ∧
      Q a s') ∨
    (∃ log e c' s', p.run h c = (log, .error e) ∧ spec.Trace s log s' ∧ R c' s' ∧ E e s') := by
  induction p generalizing c s with
  | done a => exact .inl ⟨[], a, c, s, rfl, .nil s, hR, hwp⟩
  | call op k ih =>
      obtain ⟨hpre, hpost, hfail⟩ := hwp
      rcases href c s op hR hpre with ⟨r, c', s', hok, hr, hR'⟩ | ⟨e, herr, he⟩
      · rcases ih r hR' (hpost r s' hr) with
          ⟨log, a, c₂, s₂, hrun, htrace, hR₂, hQ⟩ | ⟨log, e, c₂, s₂, hrun, htrace, hR₂, hE⟩
        · refine .inl ⟨⟨op, r⟩ :: log, a, c₂, s₂, ?_, .cons hpre hr htrace, hR₂, hQ⟩
          simp only [Prog.run, hok, hrun]
        · refine .inr ⟨⟨op, r⟩ :: log, e, c₂, s₂, ?_, .cons hpre hr htrace, hR₂, hE⟩
          simp only [Prog.run, hok, hrun]
      · refine .inr ⟨[], e, c, s, ?_, .nil s, hR, hfail e he⟩
        simp only [Prog.run, herr]

end GenericKernel.Lib
