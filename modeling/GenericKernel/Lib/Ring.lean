import Mathlib

/-!
# Ring buffers

A ring of fixed capacity keeps its items in a window of `len` slots that starts
at `read` and wraps around. Pushing into a full ring drops the oldest item.
`toList` is the queue the window stands for:

* `toList_push_of_lt`, `toList_push_of_full` — append at the end;
* `pop_of_nil`, `pop_of_cons` — removal at the front;
* `step_toList` — every operation is the one on lists (`fifoStep`).
-/

namespace GenericKernel.Lib

/-- The operations of a queue. -/
inductive QueueOp (α : Type)
  | push (x : α)
  | pop
  | clear

/-- A queue as a list: append at the end and removal at the front. An append to a full one first
discards the front. -/
def fifoStep {α : Type} (capacity : Nat) (items : List α) : QueueOp α → Option α × List α
  | .push x => (none, (if items.length = capacity then items.tail else items) ++ [x])
  | .pop => (items.head?, items.tail)
  | .clear => (none, [])

/-- The invariant of the indices is part of the type. -/
structure Ring (α : Type) (capacity : Nat) where
  slots : Vector α capacity
  read : Nat
  write : Nat
  len : Nat
  read_lt : read < capacity
  len_le : len ≤ capacity
  write_eq : write = (read + len) % capacity

namespace Ring

variable {α : Type} {capacity : Nat}

theorem write_lt (r : Ring α capacity) : r.write < capacity := by
  rw [r.write_eq]
  exact Nat.mod_lt _ (r.read_lt.pos)

/-- An empty ring. -/
def empty (slots : Vector α capacity) (h : 0 < capacity) : Ring α capacity where
  slots := slots
  read := 0
  write := 0
  len := 0
  read_lt := h
  len_le := Nat.zero_le _
  write_eq := (Nat.zero_mod _).symm

/-- The window without its oldest slot. -/
def advance (r : Ring α capacity) (h : 0 < r.len) : Ring α capacity where
  slots := r.slots
  read := (r.read + 1) % capacity
  write := r.write
  len := r.len - 1
  read_lt := Nat.mod_lt _ r.read_lt.pos
  len_le := (Nat.sub_le _ _).trans r.len_le
  write_eq := by
    rw [r.write_eq, Nat.mod_add_mod]
    congr 1
    omega

/-- The item stored at the end of a window with a slot left. -/
def append (r : Ring α capacity) (x : α) (h : r.len < capacity) : Ring α capacity where
  slots := r.slots.set r.write x r.write_lt
  read := r.read
  write := (r.write + 1) % capacity
  len := r.len + 1
  read_lt := r.read_lt
  len_le := h
  write_eq := by
    rw [r.write_eq, Nat.mod_add_mod, Nat.add_assoc]

def push (r : Ring α capacity) (x : α) : Ring α capacity :=
  if h : r.len = capacity then
    (r.advance (by rw [h]; exact r.read_lt.pos)).append x (by
      have := r.read_lt
      simp only [advance]
      omega)
  else r.append x (by have := r.len_le; omega)

def pop (r : Ring α capacity) : Option α × Ring α capacity :=
  have := r.read_lt
  if h : 0 < r.len then (some r.slots[r.read], r.advance h) else (none, r)

/-- The item `i` places behind the oldest one. -/
def item (r : Ring α capacity) (i : Nat) : α :=
  have : (r.read + i) % capacity < capacity := Nat.mod_lt _ r.read_lt.pos
  r.slots[(r.read + i) % capacity]

/-- The items, oldest first. -/
def toList (r : Ring α capacity) : List α := (List.range r.len).map r.item

@[simp] theorem length_toList (r : Ring α capacity) : r.toList.length = r.len := by
  simp [toList]

theorem toList_empty (slots : Vector α capacity) (h : 0 < capacity) :
    (empty slots h).toList = [] := rfl

variable (r : Ring α capacity)
include r

theorem item_advance (h : 0 < r.len) (i : Nat) :
    (r.advance h).item i = r.item (i + 1) := by
  unfold item advance
  simp only [Nat.mod_add_mod]
  congr 2
  omega

theorem toList_advance (h : 0 < r.len) :
    r.toList = r.item 0 :: (r.advance h).toList := by
  have hlen : r.len = (r.advance h).len + 1 := by
    simp only [advance]
    omega
  unfold toList
  rw [hlen, List.range_succ_eq_map, List.map_cons, List.map_map]
  congr 1
  refine List.map_congr_left fun i _ => ?_
  exact (r.item_advance h i).symm

/-- Different places of a window are different slots. -/
theorem place_ne_write (h : r.len < capacity) {i : Nat} (hi : i < r.len) :
    (r.read + i) % capacity ≠ r.write := by
  rw [r.write_eq]
  intro heq
  have hmod : r.read + i ≡ r.read + r.len [MOD capacity] := heq
  have hcancel := Nat.ModEq.add_left_cancel' r.read hmod
  rw [Nat.ModEq, Nat.mod_eq_of_lt (by omega), Nat.mod_eq_of_lt h] at hcancel
  omega

theorem toList_append (x : α) (h : r.len < capacity) :
    (r.append x h).toList = r.toList ++ [x] := by
  have hlast : (r.append x h).item r.len = x := by
    simp [item, append, r.write_eq]
  have hold : ∀ i ∈ List.range r.len, (r.append x h).item i = r.item i := by
    intro i hi
    have hne := r.place_ne_write h (List.mem_range.mp hi)
    simp [item, append, hne.symm]
  show (List.range (r.len + 1)).map (r.append x h).item = (List.range r.len).map r.item ++ [x]
  rw [List.range_succ, List.map_append, List.map_congr_left hold, List.map_singleton, hlast]

theorem toList_push_of_lt (x : α) (h : r.len < capacity) :
    (r.push x).toList = r.toList ++ [x] := by
  unfold push
  rw [dif_neg (by omega), toList_append]

/-- A push into a full ring first drops the oldest item. -/
theorem toList_push_of_full (x : α) (h : r.len = capacity) :
    (r.push x).toList = r.toList.tail ++ [x] := by
  unfold push
  rw [dif_pos h, toList_append, r.toList_advance (by rw [h]; exact r.read_lt.pos), List.tail_cons]

theorem pop_of_nil (h : r.toList = []) : r.pop = (none, r) := by
  have hlen := r.length_toList
  rw [h] at hlen
  unfold pop
  rw [dif_neg (by simp [← hlen])]

theorem pop_of_cons {x : α} {xs : List α} (h : r.toList = x :: xs) :
    ∃ r', r.pop = (some x, r') ∧ r'.toList = xs := by
  have hlen := r.length_toList
  rw [h, List.length_cons] at hlen
  have hpos : 0 < r.len := by omega
  rw [r.toList_advance hpos, List.cons.injEq] at h
  refine ⟨r.advance hpos, ?_, h.2⟩
  rw [pop, dif_pos hpos, ← h.1]
  simp [item, Nat.mod_eq_of_lt r.read_lt]

/-- The window emptied. -/
def clear (r : Ring α capacity) : Ring α capacity := empty r.slots r.read_lt.pos

/-- One operation, and the item that a `pop` returns. -/
def step (r : Ring α capacity) : QueueOp α → Option α × Ring α capacity
  | .push x => (none, r.push x)
  | .pop => r.pop
  | .clear => (none, r.clear)

/-- A ring is a bounded queue. -/
theorem step_toList (op : QueueOp α) :
    (r.step op).1 = (fifoStep capacity r.toList op).1 ∧
      (r.step op).2.toList = (fifoStep capacity r.toList op).2 := by
  cases op with
  | push x =>
      refine ⟨rfl, ?_⟩
      show (r.push x).toList = (if r.toList.length = capacity then r.toList.tail else r.toList) ++ [x]
      rw [length_toList]
      by_cases hfull : r.len = capacity
      · rw [if_pos hfull, r.toList_push_of_full x hfull]
      · rw [if_neg hfull, r.toList_push_of_lt x (Nat.lt_of_le_of_ne r.len_le hfull)]
  | pop =>
      show r.pop.1 = r.toList.head? ∧ r.pop.2.toList = r.toList.tail
      cases hitems : r.toList with
      | nil =>
          rw [r.pop_of_nil hitems]
          exact ⟨rfl, hitems⟩
      | cons x items =>
          obtain ⟨r', hpop, hrest⟩ := r.pop_of_cons hitems
          rw [hpop]
          exact ⟨rfl, hrest⟩
  | clear => exact ⟨rfl, toList_empty ..⟩

theorem len_pop_lt {x : α} {r' : Ring α capacity} (h : r.pop = (some x, r')) : r'.len < r.len := by
  unfold pop at h
  split at h
  · obtain ⟨_, rfl⟩ : _ ∧ _ := by simpa using h
    simp only [advance]
    omega
  · simp at h

end Ring

end GenericKernel.Lib
