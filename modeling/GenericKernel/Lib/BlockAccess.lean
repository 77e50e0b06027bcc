import GenericKernel.Lib.BlockProgram

/-!
# Where a program reads and writes

* `accesses` — the calls of a run without faults, in order;
* `evaluate_outside` — a block that is not written keeps its contents;
* `Guarded` — every access is permitted, or it misses the device and makes the
  program stop; a result comes with a disk that satisfies a postcondition. One
  rule for each way to build a program, and the loop rule.
-/

namespace GenericKernel.Lib

variable {L B F ε α β : Type}

/-- What a call asks of the device. -/
structure Access (L : Type) where
  label : L
  writes : Bool
  block : Nat
  deriving DecidableEq

def BlockOp.access : BlockOp L B → Access L
  | .read label block => ⟨label, false, block⟩
  | .write label block _ => ⟨label, true, block⟩

/-- The calls of a run without faults, in order. -/
def accesses (size : Nat) (outOfRange : F) (p : BlockProg L B F ε α) (d : Nat → B) :
    List (Access L) :=
  (Prog.run (diskHandler size outOfRange) p.run d).1.map fun e => e.op.access

section Accesses

variable (size : Nat) (outOfRange : F) (d : Nat → B)

@[simp] theorem accesses_pure (a : α) :
    accesses size outOfRange (pure a : BlockProg L B F ε α) d = [] := rfl

@[simp] theorem accesses_throw (e : ε) :
    accesses size outOfRange (throw e : BlockProg L B F ε α) d = [] := rfl

@[simp] theorem accesses_ofExcept (r : Except ε α) :
    accesses size outOfRange (ofExcept r : BlockProg L B F ε α) d = [] := by
  cases r with
  | ok a => rfl
  | error e => rfl

@[simp] theorem accesses_readBlock (onError : F → ε) (label : L) (block : Nat) :
    accesses size outOfRange (readBlock onError label block : BlockProg L B F ε B) d =
      [⟨label, false, block⟩] := rfl

@[simp] theorem accesses_writeBlock (onError : F → ε) (label : L) (block : Nat) (contents : B) :
    accesses size outOfRange (writeBlock onError label block contents) d =
      [⟨label, true, block⟩] := by
  obtain ⟨reply, hrun⟩ := run_writeBlock size outOfRange d onError label block contents
  rw [accesses, hrun]
  rfl

theorem accesses_bind (p : BlockProg L B F ε α) (f : α → BlockProg L B F ε β) :
    accesses size outOfRange (p >>= f) d = accesses size outOfRange p d ++
      match evaluate size outOfRange p d with
      | (.ok a, d') => accesses size outOfRange (f a) d'
      | (.error _, _) => [] := by
  rw [accesses, run_bindCont]
  rcases evaluate size outOfRange p d with ⟨r, d'⟩
  cases r with
  | ok a => exact List.map_append
  | error e => exact (List.append_nil _).symm

end Accesses

section Members

variable {size : Nat} {outOfRange : F} {d d' : Nat → B} {p : BlockProg L B F ε α}
  {f : α → BlockProg L B F ε β} {x : Access L}

theorem mem_accesses_left (h : x ∈ accesses size outOfRange p d) :
    x ∈ accesses size outOfRange (p >>= f) d := by
  rw [accesses_bind]
  exact List.mem_append_left _ h

theorem mem_accesses_right {a : α} (hp : evaluate size outOfRange p d = (.ok a, d'))
    (h : x ∈ accesses size outOfRange (f a) d') : x ∈ accesses size outOfRange (p >>= f) d := by
  rw [accesses_bind, hp]
  exact List.mem_append_right _ h

theorem diskHandler_outside {op : BlockOp L B} {block : Nat} {reply : op.Reply F}
    (hcall : diskHandler size outOfRange op d = .ok (reply, d'))
    (h : op.access.writes = true → op.access.block ≠ block) : d' block = d block := by
  cases op with
  | read label b =>
      rw [← (Prod.mk.inj (Except.ok.inj hcall)).2]
  | write label b contents =>
      by_cases hb : b < size
      · obtain ⟨_, rfl⟩ := Prod.mk.inj (Except.ok.inj ((if_pos hb).symm.trans hcall))
        exact if_neg (Ne.symm (h rfl))
      · obtain ⟨_, rfl⟩ := Prod.mk.inj (Except.ok.inj ((if_neg hb).symm.trans hcall))
        rfl

/-- **Frame rule**: a block that is not written keeps its contents. -/
theorem evaluate_outside {block : Nat}
    (h : ∀ x ∈ accesses size outOfRange p d, x.writes = true → x.block ≠ block) :
    (evaluate size outOfRange p d).2 block = d block := by
  have hrun : ∀ (q : Prog (@BlockOp.Reply L B F) (Except ε α)) (d : Nat → B),
      (∀ x ∈ (Prog.run (diskHandler size outOfRange) q d).1.map fun e => e.op.access,
        x.writes = true → x.block ≠ block) → ∀ r d',
      (Prog.run (diskHandler size outOfRange) q d).2 = .ok (r, d') → d' block = d block := by
    intro q
    induction q with
    | done a =>
        intro d _ r d' hresult
        rw [(Prod.mk.inj (Except.ok.inj hresult)).2]
    | call op k ih =>
        intro d hall r d' hresult
        cases hcall : diskHandler size outOfRange op d with
        | error e => exact e.elim
        | ok reply =>
            obtain ⟨reply, d₁⟩ := reply
            rw [Prog.run_call hcall] at hall hresult
            have hfirst := hall _ List.mem_cons_self
            rw [ih reply d₁ (fun x hx => hall x (List.mem_cons_of_mem _ hx)) r d' hresult]
            exact diskHandler_outside hcall hfirst
  unfold evaluate
  cases hresult : (Prog.run (diskHandler size outOfRange) p.run d).2 with
  | error e => exact e.elim
  | ok result => exact hrun p.run d h result.1 result.2 hresult

/-- A round of a loop is reached if those before it succeed. -/
theorem mem_accesses_forRange {body : Nat → BlockProg L B F ε Unit} {count i : Nat} (hi : i < count)
    (hok : ∀ j < i, ∀ d, ∃ d', evaluate size outOfRange (body j) d = (.ok (), d'))
    (hmem : ∀ d, x ∈ accesses size outOfRange (body i) d) :
    x ∈ accesses size outOfRange (forRange body count) d := by
  have hgo : ∀ k j d, j + k = count → j ≤ i →
      x ∈ accesses size outOfRange (forRange.go body k j) d := by
    intro k
    induction k with
    | zero =>
        intro j d hj hle
        omega
    | succ k ih =>
        intro j d hj hle
        by_cases heq : j = i
        · subst heq
          exact mem_accesses_left (hmem d)
        · obtain ⟨d', heval⟩ := hok j (by omega) d
          exact mem_accesses_right heval (ih (j + 1) d' (by omega) (by omega))
  exact hgo count 0 d (Nat.zero_add count) (Nat.zero_le i)

end Members

/-- Every access is permitted by `P`, or it misses the device and the program stops
with an error in `Q`; a result comes with a disk that satisfies `R`. -/
structure Guarded (size : Nat) (outOfRange : F) (P : Access L → Prop) (Q : ε → Prop)
    (p : BlockProg L B F ε α) (d : Nat → B) (R : α → (Nat → B) → Prop) : Prop where
  permitted : ∀ x ∈ accesses size outOfRange p d, P x ∨
    size ≤ x.block ∧ ∃ e, Q e ∧ (evaluate size outOfRange p d).1 = .error e
  returns : ∀ a d', evaluate size outOfRange p d = (.ok a, d') → R a d'

namespace Guarded

variable {size : Nat} {outOfRange : F} {P : Access L → Prop} {Q : ε → Prop} {d : Nat → B}
  {p : BlockProg L B F ε α} {f : α → BlockProg L B F ε β} {R : α → (Nat → B) → Prop}

theorem conseq {R' : α → (Nat → B) → Prop} (h : Guarded size outOfRange P Q p d R)
    (hR : ∀ a d', R a d' → R' a d') : Guarded size outOfRange P Q p d R' :=
  ⟨h.permitted, fun a d' heval => hR a d' (h.returns a d' heval)⟩

/-- A block of the device that no permitted write is for keeps its contents. -/
theorem outside {block : Nat} (h : Guarded size outOfRange P Q p d R) (hblock : block < size)
    (hP : ∀ x, P x → x.writes = true → x.block ≠ block) :
    (evaluate size outOfRange p d).2 block = d block := by
  refine evaluate_outside fun x hx hwrites => ?_
  rcases h.permitted x hx with hx | ⟨hmiss, _⟩
  · exact hP x hx hwrites
  · omega

theorem ofExcept {r : Except ε α} (hR : ∀ a, r = .ok a → R a d) :
    Guarded size outOfRange P Q (MonadExcept.ofExcept r : BlockProg L B F ε α) d R := by
  refine ⟨fun x hx => ?_, fun a d' heval => ?_⟩
  · rw [accesses_ofExcept] at hx
    exact nomatch hx
  · rw [evaluate_ofExcept] at heval
    obtain ⟨hr, rfl⟩ := Prod.mk.inj heval
    exact hR a hr

theorem pure {a : α} (hR : R a d) :
    Guarded size outOfRange P Q (Pure.pure a : BlockProg L B F ε α) d R :=
  ofExcept (r := .ok a) fun _ hb => Except.ok.inj hb ▸ hR

theorem throw (e : ε) :
    Guarded size outOfRange P Q (MonadExcept.throw e : BlockProg L B F ε α) d R :=
  ofExcept (r := .error e) fun _ ha => nomatch ha

theorem bind {R' : β → (Nat → B) → Prop} (h : Guarded size outOfRange P Q p d R)
    (hf : ∀ a d', R a d' → Guarded size outOfRange P Q (f a) d' R') :
    Guarded size outOfRange P Q (p >>= f) d R' := by
  have hp := h.permitted
  have hret := h.returns
  rcases heval : evaluate size outOfRange p d with ⟨r, d'⟩
  rw [heval] at hp hret
  constructor
  · rw [accesses_bind, evaluate_bind, heval]
    cases r with
    | error e =>
        intro x hx
        rw [List.append_nil] at hx
        rcases hp x hx with hP | ⟨hout, e', hQ, he⟩
        · exact .inl hP
        · exact .inr ⟨hout, e', hQ, congrArg Except.error (Except.error.inj he)⟩
    | ok a =>
        intro x hx
        rcases List.mem_append.mp hx with hx | hx
        · rcases hp x hx with hP | ⟨_, e, _, he⟩
          · exact .inl hP
          · exact nomatch he
        · exact (hf a d' (hret a d' rfl)).permitted x hx
  · rw [evaluate_bind, heval]
    cases r with
    | error e => exact fun b d₂ heval => nomatch heval
    | ok a => exact (hf a d' (hret a d' rfl)).returns

theorem readBlock {onError : F → ε} {label : L} {block : Nat} {R : B → (Nat → B) → Prop}
    (hP : P ⟨label, false, block⟩ ∨ size ≤ block ∧ Q (onError outOfRange))
    (hR : block < size → R (d block) d) :
    Guarded size outOfRange P Q (Lib.readBlock onError label block) d R := by
  constructor
  · intro x hx
    obtain rfl := List.mem_singleton.mp hx
    rcases hP with hP | ⟨hout, hQ⟩
    · exact .inl hP
    · refine .inr ⟨hout, _, hQ, ?_⟩
      rw [evaluate_readBlock, if_neg (Nat.not_lt.mpr hout)]
  · intro a d' heval
    rw [evaluate_readBlock] at heval
    obtain ⟨ha, rfl⟩ := Prod.mk.inj heval
    by_cases hin : block < size
    · rw [if_pos hin] at ha
      rw [← Except.ok.inj ha]
      exact hR hin
    · rw [if_neg hin] at ha
      exact nomatch ha

theorem writeBlock {onError : F → ε} {label : L} {block : Nat} {contents : B}
    {R : Unit → (Nat → B) → Prop}
    (hP : P ⟨label, true, block⟩ ∨ size ≤ block ∧ Q (onError outOfRange))
    (hR : block < size → R () (Function.update d block contents)) :
    Guarded size outOfRange P Q (Lib.writeBlock onError label block contents) d R := by
  constructor
  · intro x hx
    rw [accesses_writeBlock] at hx
    obtain rfl := List.mem_singleton.mp hx
    rcases hP with hP | ⟨hout, hQ⟩
    · exact .inl hP
    · refine .inr ⟨hout, _, hQ, ?_⟩
      rw [evaluate_writeBlock, if_neg (Nat.not_lt.mpr hout)]
  · intro a d' heval
    rw [evaluate_writeBlock] at heval
    by_cases hin : block < size
    · rw [if_pos hin] at heval
      obtain ⟨_, rfl⟩ := Prod.mk.inj heval
      exact hR hin
    · rw [if_neg hin] at heval
      exact nomatch heval

/-- **The loop rule**, with an invariant of index and disk. -/
theorem forRange {body : Nat → BlockProg L B F ε Unit} {count : Nat} (I : Nat → (Nat → B) → Prop)
    (hbody : ∀ i < count, ∀ d, I i d →
      Guarded size outOfRange P Q (body i) d fun _ => I (i + 1)) (hd : I 0 d) :
    Guarded size outOfRange P Q (Lib.forRange body count) d fun _ => I count := by
  have hgo : ∀ k i d, i + k = count → I i d →
      Guarded size outOfRange P Q (Lib.forRange.go body k i) d fun _ => I count := by
    intro k
    induction k with
    | zero =>
        intro i d hi hd
        exact pure (hi ▸ hd)
    | succ k ih =>
        intro i d hi hd
        exact (hbody i (by omega) d hd).bind fun _ d' hd' => ih (i + 1) d' (by omega) hd'
  exact hgo count 0 d (Nat.zero_add count) hd

end Guarded

end GenericKernel.Lib
