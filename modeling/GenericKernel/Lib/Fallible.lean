import GenericKernel.Lib.Word

/-!
# Computations that return, fail or panic

A `Fallible` value is what a call leaves behind: a value, an error that the caller
handles, or a panic. Arithmetic, indexing and slicing are the checked ones of
the source language: an overflow or an access out of bounds is a panic.

* **operations** — `add`, `mul`, `sub`, `Slice.index`, `Slice.range`, `reject`;
* **specification** — `Decides x p a`: `x` returns `a` when `p` holds and fails
  otherwise, so it never panics. One rule for each operation, `Decides.bind`
  for their composition.
-/

namespace GenericKernel.Lib

/-- Where nothing panics, `Except` is enough. -/
theorem except_bind_eq_ok {ε α β : Type} {x : Except ε α} {f : α → Except ε β} {b : β} :
    (x >>= f) = .ok b ↔ ∃ a, x = .ok a ∧ f a = .ok b := by
  cases x <;> simp [bind, Except.bind]

inductive Fallible (ε α : Type)
  | ok (value : α)
  | error (e : ε)
  | panic
  deriving DecidableEq, Repr

namespace Fallible

variable {ε α β : Type}

protected def bind : Fallible ε α → (α → Fallible ε β) → Fallible ε β
  | ok value, f => f value
  | error e, _ => error e
  | panic, _ => panic

instance : Monad (Fallible ε) where
  pure := ok
  bind := Fallible.bind

@[simp] theorem ok_bind (value : α) (f : α → Fallible ε β) : (ok value >>= f) = f value := rfl

@[simp] theorem error_bind (e : ε) (f : α → Fallible ε β) : (error e >>= f) = error e := rfl

@[simp] theorem panic_bind (f : α → Fallible ε β) : ((panic : Fallible ε α) >>= f) = panic := rfl

theorem bind_eq_ok {x : Fallible ε α} {f : α → Fallible ε β} {b : β} :
    (x >>= f) = ok b ↔ ∃ a, x = ok a ∧ f a = ok b := by
  cases x with
  | ok a => simp
  | error e => simp
  | panic => simp

/-- `option.ok_or(e)?` -/
def ofOption (e : ε) : Option α → Fallible ε α
  | some value => ok value
  | none => error e

/-- `if bad { return Err(e) }` -/
def reject (bad : Prop) [Decidable bad] (e : ε) : Fallible ε Unit := if bad then error e else ok ()

/-- `a + b` on words. -/
def add (a b : Nat) : Fallible ε Nat := if a + b < wordSize then ok (a + b) else panic

/-- `a * b` on words. -/
def mul (a b : Nat) : Fallible ε Nat := if a * b < wordSize then ok (a * b) else panic

/-- `a - b` on words. -/
def sub (a b : Nat) : Fallible ε Nat := if b ≤ a then ok (a - b) else panic

theorem add_of_lt {a b : Nat} (h : a + b < wordSize) : (add a b : Fallible ε Nat) = ok (a + b) :=
  if_pos h

theorem mul_of_lt {a b : Nat} (h : a * b < wordSize) : (mul a b : Fallible ε Nat) = ok (a * b) :=
  if_pos h

theorem sub_of_le {a b : Nat} (h : b ≤ a) : (sub a b : Fallible ε Nat) = ok (a - b) := if_pos h

/-! ## Success conditions -/

/-- Returns `a` when `p` holds, and fails without a panic otherwise. -/
structure Decides (x : Fallible ε α) (p : Prop) (a : α) : Prop where
  accepts : p → x = ok a
  rejects : ¬ p → ∃ e, x = error e

namespace Decides

variable {x : Fallible ε α} {f : α → Fallible ε β} {p q : Prop} {a : α} {b : β}

theorem ne_panic (h : Decides x p a) : x ≠ panic := by
  by_cases hp : p
  · simp [h.accepts hp]
  · obtain ⟨e, he⟩ := h.rejects hp
    simp [he]

theorem eq_ok_iff (h : Decides x p a) {a' : α} : x = ok a' ↔ p ∧ a' = a := by
  by_cases hp : p
  · simp [h.accepts hp, hp, eq_comm]
  · obtain ⟨e, he⟩ := h.rejects hp
    simp [he, hp]

theorem of_ok (h : x = ok a) : Decides x True a := ⟨fun _ => h, fun hn => absurd trivial hn⟩

theorem congr (h : Decides x p a) (hpq : p ↔ q) : Decides x q a :=
  ⟨fun hq => h.accepts (hpq.mpr hq), fun hq => h.rejects fun hp => hq (hpq.mp hp)⟩

/-- The continuation is specified where the first part succeeds. -/
theorem bind (h : Decides x p a) (hf : p → Decides (f a) q b) : Decides (x >>= f) (p ∧ q) b := by
  constructor
  · rintro ⟨hp, hq⟩
    rw [h.accepts hp, ok_bind]
    exact (hf hp).accepts hq
  · intro hn
    by_cases hp : p
    · rw [h.accepts hp, ok_bind]
      exact (hf hp).rejects fun hq => hn ⟨hp, hq⟩
    · obtain ⟨e, he⟩ := h.rejects hp
      exact ⟨e, by rw [he, error_bind]⟩

theorem reject {bad : Prop} [Decidable bad] {e : ε} : Decides (Fallible.reject bad e) (¬ bad) () := by
  constructor
  · intro h
    exact if_neg h
  · intro h
    exact ⟨e, if_pos (not_not.mp h)⟩

/-- `bind` with a rejected condition in front. -/
theorem reject_bind {bad : Prop} [Decidable bad] {e : ε} {f : Unit → Fallible ε β}
    (hf : ¬ bad → Decides (f ()) q b) : Decides (Fallible.reject bad e >>= f) (¬ bad ∧ q) b :=
  reject.bind hf

/-- A rejected condition in front of a part that always returns. -/
theorem reject_last {bad : Prop} [Decidable bad] {e : ε} {f : Unit → Fallible ε β}
    (hf : ¬ bad → f () = ok b) : Decides (Fallible.reject bad e >>= f) (¬ bad) b :=
  (reject_bind fun h => of_ok (hf h)).congr (and_iff_left trivial)

theorem ofOption {o : Option α} {e : ε} (h : ∀ a', o = some a' ↔ p ∧ a' = a) :
    Decides (Fallible.ofOption e o) p a := by
  constructor
  · intro hp
    rw [(h a).mpr ⟨hp, rfl⟩]
    rfl
  · intro hp
    cases o with
    | none => exact ⟨e, rfl⟩
    | some a' => exact absurd ((h a').mp rfl).1 hp

theorem checkedAdd {m n : Nat} {e : ε} :
    Decides (Fallible.ofOption e (Lib.checkedAdd m n)) (m + n < wordSize) (m + n) :=
  ofOption fun _ => by rw [checkedAdd_eq_some, and_comm]

theorem checkedMul {m n : Nat} {e : ε} :
    Decides (Fallible.ofOption e (Lib.checkedMul m n)) (m * n < wordSize) (m * n) :=
  ofOption fun _ => by rw [checkedMul_eq_some, and_comm]

end Decides

end Fallible

/-! ## Slices -/

/-- A slice: its length is a word. -/
@[ext] structure Slice (α : Type) where
  items : List α
  fits : items.length < wordSize

namespace Slice

variable {ε α : Type}

open Fallible

def length (s : Slice α) : Nat := s.items.length

/-- `s[i]` -/
def index (s : Slice α) (i : Nat) : Fallible ε α :=
  match s.items[i]? with
  | some x => ok x
  | none => panic

/-- The items from `start` up to `stop`. -/
def between (s : Slice α) (start stop : Nat) : Slice α where
  items := (s.items.drop start).take (stop - start)
  fits := by
    rw [List.length_take, List.length_drop]
    have := s.fits
    omega

/-- `s.get(start..stop)` -/
def get? (s : Slice α) (start stop : Nat) : Option (Slice α) :=
  if start ≤ stop ∧ stop ≤ s.length then some (s.between start stop) else none

/-- `&s[start..stop]` -/
def range (s : Slice α) (start stop : Nat) : Fallible ε (Slice α) :=
  if start ≤ stop ∧ stop ≤ s.length then ok (s.between start stop) else panic

/-- `s[0]` up to `s[k - 1]`. -/
def indices (s : Slice α) : Nat → Fallible ε (List α)
  | 0 => ok []
  | k + 1 => do
      let xs ← s.indices k
      let x ← s.index k
      ok (xs ++ [x])

theorem index_eq_ok {s : Slice α} {i : Nat} {x : α} (h : s.items[i]? = some x) :
    (s.index i : Fallible ε α) = ok x := by
  simp [index, h]

theorem length_between {s : Slice α} {start stop : Nat} (h : stop ≤ s.length) :
    (s.between start stop).length = stop - start := by
  have hlen : s.items.length = s.length := rfl
  simp [length, between]
  omega

theorem get?_of_le {s : Slice α} {start stop : Nat} (h : start ≤ stop) (hs : stop ≤ s.length) :
    s.get? start stop = some (s.between start stop) := if_pos ⟨h, hs⟩

theorem range_of_le {s : Slice α} {start stop : Nat} (h : start ≤ stop) (hs : stop ≤ s.length) :
    (s.range start stop : Fallible ε (Slice α)) = ok (s.between start stop) := if_pos ⟨h, hs⟩

theorem indices_eq {s : Slice α} {k : Nat} (h : k ≤ s.length) :
    (s.indices k : Fallible ε (List α)) = ok (s.items.take k) := by
  induction k with
  | zero => rfl
  | succ k ih =>
      have hk : k < s.items.length := h
      rw [indices, ih (by omega), ok_bind, index_eq_ok (List.getElem?_eq_getElem hk), ok_bind,
        List.take_add_one, List.getElem?_eq_getElem hk]
      rfl

end Slice

end GenericKernel.Lib
