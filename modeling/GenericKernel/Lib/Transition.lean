import Mathlib.Data.List.Forall2
import Mathlib.Logic.Basic
import GenericKernel.Lib.Fallible

/-!
# Guarded runs

A system takes actions one after another; an action may be impossible. `run`
performs a list of actions, `Along` says that each of them meets a condition on
the state it is taken in. What every such step preserves, the run preserves
(`run_invariant`); two systems that every step keeps related are related after a run
(`Each.foldl`, where no action is impossible). A server answers every request (`serve`); two
servers that give related answers from related states do so in every run (`Each.serve`). A server
whose steps may panic does not panic where it follows one that cannot (`tryServe_eq`). A
decoder is a system whose inputs may each produce an output; `outputs` is what a list of inputs
produces.
-/

namespace GenericKernel.Lib

variable {S A : Type}

/-- Perform the actions in order; `none` if one of them is impossible. -/
def run (step : S → A → Option S) : S → List A → Option S
  | s, [] => some s
  | s, a :: rest =>
      match step s a with
      | none => none
      | some s' => run step s' rest

/-- Every action is taken in a state that meets the condition. -/
def Along (step : S → A → Option S) (P : S → A → Prop) : S → List A → Prop
  | _, [] => True
  | s, a :: rest => P s a ∧ ∀ s', step s a = some s' → Along step P s' rest

variable {step : S → A → Option S}

theorem run_cons {s s' : S} {a : A} (h : step s a = some s') (rest : List A) :
    run step s (a :: rest) = run step s' rest := by
  rw [run, h]

theorem along_true (s : S) (as : List A) : Along step (fun _ _ => True) s as := by
  induction as generalizing s with
  | nil => trivial
  | cons a as ih => exact ⟨trivial, fun s' _ => ih s'⟩

variable {P : S → A → Prop} {as : List A}

theorem Along.mono {P' : S → A → Prop} (hP : ∀ s, ∀ a ∈ as, P s a → P' s a) :
    ∀ {s : S}, Along step P s as → Along step P' s as := by
  induction as with
  | nil => exact fun _ => trivial
  | cons a as ih =>
      intro s h
      exact ⟨hP s a List.mem_cons_self h.1, fun s' hs =>
        ih (fun s b hb => hP s b (List.mem_cons_of_mem _ hb)) (h.2 s' hs)⟩

theorem run_append (s : S) (as bs : List A) :
    run step s (as ++ bs) = (run step s as).bind fun s' => run step s' bs := by
  induction as generalizing s with
  | nil => rfl
  | cons a as ih =>
      rw [List.cons_append, run, run]
      cases step s a with
      | none => rfl
      | some s' => exact ih s'

theorem Along.append {bs : List A} : ∀ {s s' : S},
    run step s as = some s' → Along step P s as → Along step P s' bs → Along step P s (as ++ bs) := by
  induction as with
  | nil =>
      intro s s' hrun _ hbs
      obtain rfl := Option.some.inj hrun
      exact hbs
  | cons a as ih =>
      intro s s' hrun has hbs
      refine ⟨has.1, fun s₁ hs₁ => ih ?_ (has.2 s₁ hs₁) hbs⟩
      rw [run_cons hs₁] at hrun
      exact hrun

/-- Where an impossible action has an error to say why. -/
theorem run_toOption {ε : Type} (step : S → A → Except ε S) (s : S) (as : List A) :
    run (fun s a => (step s a).toOption) s as = (as.foldlM step s).toOption := by
  induction as generalizing s with
  | nil => rfl
  | cons a as ih =>
      rw [List.foldlM_cons, run]
      cases step s a with
      | error e => rfl
      | ok s' => exact ih s'

/-- **Invariant rule**: what every guarded step preserves holds after every
guarded run. -/
theorem run_invariant {Inv : S → Prop}
    (hstep : ∀ s a s', Inv s → P s a → step s a = some s' → Inv s') :
    ∀ {s s' : S}, Inv s → Along step P s as → run step s as = some s' → Inv s' := by
  induction as with
  | nil =>
      intro s s' hinv _ hrun
      obtain rfl : s = s' := Option.some.inj hrun
      exact hinv
  | cons a as ih =>
      intro s s' hinv halong hrun
      rw [run] at hrun
      cases hs : step s a with
      | none =>
          rw [hs] at hrun
          cases hrun
      | some s₁ =>
          rw [hs] at hrun
          exact ih (hstep s a s₁ hinv halong.1 hs) (halong.2 s₁ hs) hrun

/-! ## Total systems -/

/-- Every action is taken in a state that meets the condition, where all are possible. -/
def Each (next : S → A → S) (P : S → A → Prop) : S → List A → Prop
  | _, [] => True
  | s, a :: rest => P s a ∧ Each next P (next s a) rest

theorem each_true (next : S → A → S) (s : S) (as : List A) :
    Each next (fun _ _ => True) s as := by
  induction as generalizing s with
  | nil => trivial
  | cons a as ih => exact ⟨trivial, ih _⟩

theorem Each.imp {next : S → A → S} {Q : S → A → Prop} (h : ∀ s a, P s a → Q s a) :
    ∀ {s : S}, Each next P s as → Each next Q s as := by
  induction as with
  | nil => exact fun _ => trivial
  | cons a as ih => exact fun heach => ⟨h _ a heach.1, ih heach.2⟩

/-- **Simulation rule**: two systems that every step keeps related, what is known of them
conditional on `P`, are related after every run, conditional on `P` along it. -/
theorem Each.foldl {T : Type} {f : T → A → T} {next : S → A → S} {R : Prop → T → S → Prop}
    (hmono : ∀ {p q : Prop} {t s}, (q → p) → R p t s → R q t s)
    (hstep : ∀ {p t s} a, R p t s → R (p ∧ P s a) (f t a) (next s a)) :
    ∀ {p t s}, R p t s → R (p ∧ Each next P s as) (as.foldl f t) (as.foldl next s) := by
  induction as with
  | nil => exact fun hR => hmono And.left hR
  | cons a as ih => exact fun hR => hmono and_assoc.mpr (ih (hstep a hR))

/-! ## Servers -/

section Server

variable {T O O' : Type}

/-- The answers to a list of requests, and the state behind them. -/
def serve (step : S → A → O × S) : S → List A → List O × S
  | s, [] => ([], s)
  | s, a :: rest =>
    ((step s a).1 :: (serve step (step s a).2 rest).1, (serve step (step s a).2 rest).2)

/-- **Invariant rule** for servers. -/
theorem serve_invariant {step : S → A → O × S} {Inv : S → Prop}
    (hstep : ∀ s a, Inv s → Inv (step s a).2) (as : List A) :
    ∀ {s : S}, Inv s → Inv (serve step s as).2 := by
  induction as with
  | nil => exact fun hinv => hinv
  | cons a as ih => exact fun hinv => ih (hstep _ a hinv)

/-- **Simulation rule** for servers. -/
theorem Each.serve {step : S → A → O × S} {step' : T → A → O' × T} {R : S → T → Prop}
    {Q : O → O' → Prop}
    (hstep : ∀ s t a, R s t → P s a → Q (step s a).1 (step' t a).1 ∧ R (step s a).2 (step' t a).2) :
    ∀ {s : S} {t : T}, R s t → Each (fun s a => (step s a).2) P s as →
      List.Forall₂ Q (Lib.serve step s as).1 (Lib.serve step' t as).1 ∧
        R (Lib.serve step s as).2 (Lib.serve step' t as).2 := by
  induction as with
  | nil => exact fun hR _ => ⟨.nil, hR⟩
  | cons a as ih =>
    intro s t hR heach
    obtain ⟨hQ, hR'⟩ := hstep s t a hR heach.1
    obtain ⟨hQs, hfinal⟩ := ih hR' heach.2
    exact ⟨.cons hQ hQs, hfinal⟩

/-- **Abstraction rule**: a server whose every step is, under `view`, a step of another one gives
the same answers. -/
theorem serve_eq {step : S → A → O × S} {step' : T → A → O × T} {view : S → T}
    (hstep : ∀ s a, (step s a).1 = (step' (view s) a).1 ∧
      view (step s a).2 = (step' (view s) a).2) (as : List A) :
    ∀ s, (Lib.serve step s as).1 = (Lib.serve step' (view s) as).1 ∧
      view (Lib.serve step s as).2 = (Lib.serve step' (view s) as).2 := by
  induction as with
  | nil => exact fun s => ⟨rfl, rfl⟩
  | cons a as ih =>
    intro s
    obtain ⟨hanswer, hnext⟩ := hstep s a
    obtain ⟨hanswers, hfinal⟩ := ih (step s a).2
    rw [Lib.serve, Lib.serve, hanswer, hanswers, hfinal, hnext]
    exact ⟨rfl, rfl⟩

/-- The answers of a server whose steps may fail. -/
def tryServe {ε : Type} (step : S → A → Fallible ε (O × S)) : S → List A → Fallible ε (List O × S)
  | s, [] => .ok ([], s)
  | s, a :: rest => do
    let (answer, s) ← step s a
    let (answers, s) ← tryServe step s rest
    return (answer :: answers, s)

/-- **Refinement rule**: on the image of `embed` every step returns, as the other server says. -/
theorem tryServe_eq {ε : Type} {step : S → A → Fallible ε (O × S)} {step' : T → A → O × T}
    {embed : T → S}
    (hstep : ∀ t a, step (embed t) a = .ok ((step' t a).1, embed (step' t a).2)) (as : List A) :
    ∀ t, tryServe step (embed t) as =
      .ok ((Lib.serve step' t as).1, embed (Lib.serve step' t as).2) := by
  induction as with
  | nil => exact fun t => rfl
  | cons a as ih =>
    intro t
    rw [tryServe, hstep, Fallible.ok_bind]
    dsimp only
    rw [ih, Fallible.ok_bind]
    rfl

end Server

/-! ## Decoders -/

section Decoder

variable {I O : Type} (decode : S → I → Option O × S)

/-- The state behind a list of inputs. -/
def after : S → List I → S
  | s, [] => s
  | s, i :: rest => after (decode s i).2 rest

/-- What a list of inputs produces, in order. -/
def outputs : S → List I → List O
  | _, [] => []
  | s, i :: rest => (decode s i).1.toList ++ outputs (decode s i).2 rest

theorem after_append (s : S) (is js : List I) :
    after decode s (is ++ js) = after decode (after decode s is) js := by
  induction is generalizing s with
  | nil => rfl
  | cons i is ih => exact ih _

theorem outputs_append (s : S) (is js : List I) :
    outputs decode s (is ++ js) = outputs decode s is ++ outputs decode (after decode s is) js := by
  induction is generalizing s with
  | nil => rfl
  | cons i is ih => rw [List.cons_append, outputs, outputs, after, ih, List.append_assoc]

end Decoder

end GenericKernel.Lib
