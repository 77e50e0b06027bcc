import Mathlib

/-!
# Counted slots

A fixed-capacity array `slots : Vector α n` together with a counter `len` is
the heapless stand-in for a growable list: the first `len` slots hold the
entries, the rest hold the default value. `Holds slots len l` says that the
pair stands for the list `l`. The three edits — overwrite, insert by shifting
up, remove by shifting down — are the array loops, and each is shown to
perform the list edit it is meant for (`Holds.set`, `Holds.insertAt`,
`Holds.removeAt`).
-/

namespace GenericKernel.Lib

variable {α : Type} [Inhabited α] {n : Nat}

/-- `for slot in (index..len).rev() { slots[slot + 1] = slots[slot] }` -/
def shiftUp (slots : Vector α n) (index len : Nat) : Vector α n :=
  (List.range' index (len - index)).reverse.foldl
    (fun slots slot => slots.setIfInBounds (slot + 1) slots[slot]!) slots

/-- `for slot in index..len - 1 { slots[slot] = slots[slot + 1] }` -/
def shiftDown (slots : Vector α n) (index len : Nat) : Vector α n :=
  (List.range' index (len - 1 - index)).foldl
    (fun slots slot => slots.setIfInBounds slot slots[slot + 1]!) slots

/-- Insertion at `index`: shift the tail up and write the free slot. -/
def insertAt (slots : Vector α n) (len index : Nat) (x : α) : Vector α n :=
  (shiftUp slots index len).setIfInBounds index x

/-- Removal at `index`: shift the tail down and reset the vacated slot. -/
def removeAt (slots : Vector α n) (len index : Nat) : Vector α n :=
  (shiftDown slots index len).setIfInBounds (len - 1) default

/-! ## The loops on lists -/

theorem vector_getElem! (slots : Vector α n) (i : Nat) : slots[i]! = slots.toList[i]! := by
  by_cases h : i < n
  · rw [getElem!_pos slots i h, getElem!_pos slots.toList i (by simpa using h),
      Vector.getElem_toList]
  · rw [getElem!_neg slots i h, getElem!_neg slots.toList i (by simpa using h)]

/-- `shiftUp` on the underlying list, with the number of moved entries. -/
def shiftUpList (l : List α) (index count : Nat) : List α :=
  (List.range' index count).reverse.foldl (fun l slot => l.set (slot + 1) l[slot]!) l

/-- `shiftDown` on the underlying list, with the number of moved entries. -/
def shiftDownList (l : List α) (index count : Nat) : List α :=
  (List.range' index count).foldl (fun l slot => l.set slot l[slot + 1]!) l

theorem toList_shiftUp (slots : Vector α n) (index len : Nat) :
    (shiftUp slots index len).toList = shiftUpList slots.toList index (len - index) := by
  unfold shiftUp shiftUpList
  generalize (List.range' index (len - index)).reverse = order
  induction order generalizing slots with
  | nil => rfl
  | cons slot rest ih =>
      rw [List.foldl_cons, List.foldl_cons, ih, Vector.toList_setIfInBounds, vector_getElem!]

theorem toList_shiftDown (slots : Vector α n) (index len : Nat) :
    (shiftDown slots index len).toList =
      shiftDownList slots.toList index (len - 1 - index) := by
  unfold shiftDown shiftDownList
  generalize List.range' index (len - 1 - index) = order
  induction order generalizing slots with
  | nil => rfl
  | cons slot rest ih =>
      rw [List.foldl_cons, List.foldl_cons, ih, Vector.toList_setIfInBounds, vector_getElem!]

/-- Shifting `l₂` up by one frees the slot behind `l₁` and overwrites the
slot behind `l₂`. -/
theorem shiftUpList_set (l₂ : List α) : ∀ (l₁ : List α) (z : α) (rest : List α) (x : α),
    (shiftUpList (l₁ ++ l₂ ++ z :: rest) l₁.length l₂.length).set l₁.length x =
      l₁ ++ x :: l₂ ++ rest := by
  induction l₂ with
  | nil =>
      intro l₁ z rest x
      simp [shiftUpList]
  | cons y l₂ ih =>
      intro l₁ z rest x
      -- The tail moves first; `w` stands for whatever is then in the slot behind `y`.
      have htail : ∀ w, (shiftUpList (l₁ ++ (y :: l₂) ++ z :: rest) (l₁.length + 1)
          l₂.length).set (l₁.length + 1) w = l₁ ++ y :: w :: l₂ ++ rest := by
        intro w
        have := ih (l₁ ++ [y]) z rest w
        simpa using this
      have hy : (shiftUpList (l₁ ++ (y :: l₂) ++ z :: rest) (l₁.length + 1)
          l₂.length)[l₁.length]! = y := by
        have hget := congrArg (fun l : List α => l[l₁.length]?) (htail y)
        simp only [List.getElem?_set_ne (Nat.succ_ne_self l₁.length)] at hget
        rw [List.getElem!_eq_getElem?_getD, hget]
        simp
      have hstep : shiftUpList (l₁ ++ (y :: l₂) ++ z :: rest) l₁.length (y :: l₂).length =
          l₁ ++ y :: y :: l₂ ++ rest := by
        calc shiftUpList (l₁ ++ (y :: l₂) ++ z :: rest) l₁.length (y :: l₂).length
            = (shiftUpList (l₁ ++ (y :: l₂) ++ z :: rest) (l₁.length + 1) l₂.length).set
                (l₁.length + 1) (shiftUpList (l₁ ++ (y :: l₂) ++ z :: rest)
                  (l₁.length + 1) l₂.length)[l₁.length]! := by
              simp only [shiftUpList, List.length_cons, List.range'_succ, List.reverse_cons,
                List.foldl_append, List.foldl_cons, List.foldl_nil]
          _ = l₁ ++ y :: y :: l₂ ++ rest := by rw [hy, htail]
      rw [hstep]
      simp

/-- Shifting `l₂` down by one overwrites the slot behind `l₁` and frees the
last slot. -/
theorem shiftDownList_set (l₂ : List α) : ∀ (l₁ : List α) (y : α) (rest : List α) (x : α),
    (shiftDownList (l₁ ++ y :: (l₂ ++ rest)) l₁.length l₂.length).set
      (l₁.length + l₂.length) x = l₁ ++ l₂ ++ x :: rest := by
  induction l₂ with
  | nil =>
      intro l₁ y rest x
      simp [shiftDownList]
  | cons z l₂ ih =>
      intro l₁ y rest x
      have hstep : shiftDownList (l₁ ++ y :: (z :: l₂ ++ rest)) l₁.length (z :: l₂).length =
          shiftDownList (l₁ ++ [z] ++ z :: (l₂ ++ rest)) (l₁ ++ [z]).length l₂.length := by
        simp [shiftDownList, List.range'_succ]
      have := ih (l₁ ++ [z]) z rest x
      rw [hstep, show l₁.length + (z :: l₂).length = (l₁ ++ [z]).length + l₂.length by
        simp only [List.length_cons, List.length_append, List.length_nil]; omega, this]
      simp

/-- The slots and the counter stand for the list `l`. -/
structure Holds (slots : Vector α n) (len : Nat) (l : List α) : Prop where
  length : len = l.length
  toList : slots.toList = l ++ List.replicate (n - l.length) default

namespace Holds

theorem le {slots : Vector α n} {len : Nat} {l : List α} (h : Holds slots len l) :
    l.length ≤ n := by
  have := congrArg List.length h.toList
  simp only [Vector.length_toList, List.length_append, List.length_replicate] at this
  omega

/-- Slots standing for the same list are equal. -/
theorem unique {slots slots' : Vector α n} {len len' : Nat} {l : List α}
    (h : Holds slots len l) (h' : Holds slots' len' l) : slots = slots' ∧ len = len' := by
  refine ⟨Vector.toList_inj.mp (h.toList.trans h'.toList.symm), h.length.trans h'.length.symm⟩

theorem take {slots : Vector α n} {len : Nat} {l : List α} (h : Holds slots len l) :
    slots.toList.take len = l := by
  rw [h.toList, h.length, List.take_left]

theorem getElem! {slots : Vector α n} {len : Nat} {l₁ l₂ : List α} {x : α}
    (h : Holds slots len (l₁ ++ x :: l₂)) : slots[l₁.length]! = x := by
  rw [vector_getElem!, h.toList]
  simp

/-- Overwriting one entry. -/
theorem set {slots : Vector α n} {len : Nat} {l₁ l₂ : List α} {x : α}
    (h : Holds slots len (l₁ ++ x :: l₂)) (y : α) :
    Holds (slots.setIfInBounds l₁.length y) len (l₁ ++ y :: l₂) := by
  refine ⟨by simpa using h.length, ?_⟩
  rw [Vector.toList_setIfInBounds, h.toList]
  simp

/-- Appending while a slot is free. -/
theorem push {slots : Vector α n} {len : Nat} {l : List α} (h : Holds slots len l)
    (hlt : len < n) (x : α) : Holds (slots.setIfInBounds len x) (len + 1) (l ++ [x]) := by
  have hlen := h.length
  refine ⟨by rw [List.length_append, hlen]; rfl, ?_⟩
  obtain ⟨k, hk⟩ : ∃ k, n - l.length = k + 1 := ⟨n - l.length - 1, by omega⟩
  have hk' : n - (l ++ [x]).length = k := by
    rw [List.length_append, List.length_singleton]
    omega
  rw [Vector.toList_setIfInBounds, h.toList, hk, hk', hlen, List.replicate_succ]
  simp

/-- Inserting between `l₁` and `l₂` while a slot is free. -/
theorem insertAt {slots : Vector α n} {len : Nat} {l₁ l₂ : List α}
    (h : Holds slots len (l₁ ++ l₂)) (hlt : len < n) (x : α) :
    Holds (insertAt slots len l₁.length x) (len + 1) (l₁ ++ x :: l₂) := by
  have hlen := h.length
  rw [List.length_append] at hlen
  refine ⟨by simp only [List.length_append, List.length_cons]; omega, ?_⟩
  obtain ⟨k, hk⟩ : ∃ k, n - (l₁ ++ l₂).length = k + 1 :=
    ⟨n - (l₁ ++ l₂).length - 1, by rw [List.length_append]; omega⟩
  have hk' : n - (l₁ ++ x :: l₂).length = k := by
    simp only [List.length_append, List.length_cons] at hk ⊢
    omega
  have htail : len - l₁.length = l₂.length := by omega
  rw [Lib.insertAt, Vector.toList_setIfInBounds, toList_shiftUp, h.toList, hk, htail, hk',
    List.replicate_succ, shiftUpList_set]

/-- Removing the entry between `l₁` and `l₂`. -/
theorem removeAt {slots : Vector α n} {len : Nat} {l₁ l₂ : List α} {x : α}
    (h : Holds slots len (l₁ ++ x :: l₂)) :
    Holds (removeAt slots len l₁.length) (len - 1) (l₁ ++ l₂) := by
  have hlen := h.length
  have hle := h.le
  simp only [List.length_append, List.length_cons] at hlen hle
  refine ⟨by rw [List.length_append]; omega, ?_⟩
  have hcount : len - 1 - l₁.length = l₂.length := by omega
  have hlast : len - 1 = l₁.length + l₂.length := by omega
  have hpad : n - (l₁ ++ l₂).length = n - (l₁ ++ x :: l₂).length + 1 := by
    simp only [List.length_append, List.length_cons]
    omega
  rw [Lib.removeAt, Vector.toList_setIfInBounds, toList_shiftDown, h.toList, hcount, hlast, hpad,
    List.append_assoc, List.cons_append, shiftDownList_set, List.replicate_succ]

end Holds

end GenericKernel.Lib
